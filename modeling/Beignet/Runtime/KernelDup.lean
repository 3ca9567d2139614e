/-
Duplicates of a program's kernels: `cl_kernel_dup` and `cl_kernel_delete` in `cl_kernel.c`, and
`cl_program_create_kernels_in_program` in `cl_program.c`.

Which allocations succeed is a parameter, by the number of allocations before.  A duplicate takes
over the code buffer at the start, but its reference only at the end, and `cl_kernel_delete` gives
one back in any case; the clean-up loop of a list of kernels stops before the first of them.

* `fill_spec` — the allocations of a duplicate, one after the other;
* `dup_eq_none_iff`, `dup_failed` — when a duplicate fails, and what it leaves;
* **`failed_creation_iff`** — when a failure leaves no trace.
-/
import Mathlib

namespace Runtime

namespace KernelDup

/-! ### Kernels -/

/-- The pointers of a kernel to blocks of its own. -/
inductive Field where
  | images
  | exec_info
  | args
  | curbe
  deriving DecidableEq

/-- `_cl_kernel`, with its blocks of memory. -/
structure Kernel where
  bo : Option ℕ
  arg_n : ℕ
  curbe_sz : ℕ
  image_sz : ℕ
  exec_info_n : ℕ
  ref_its_program : Bool
  blocks : Field → Option ℕ

/-- A kernel that was created, at its address. -/
structure Handle where
  address : ℕ
  kernel : Kernel

/-- The blocks that are allocated, the counts, and how many allocations were tried. -/
structure State where
  live : Finset ℕ
  next : ℕ
  unused : ∀ a ∈ live, a < next
  bo_ref : ℕ → ℤ
  program_ref : ℤ
  destroyed : Bool
  calls : ℕ

/-- A new block, at `next`. -/
def State.add (s : State) : State :=
  { s with
    live := insert s.next s.live
    next := s.next + 1
    unused := by
      intro a ha
      rcases Finset.mem_insert.mp ha with rfl | ha
      · omega
      · have := s.unused a ha
        omega
    calls := s.calls + 1 }

section

variable (alloc : ℕ → Bool)

/-- `cl_calloc` -/
def calloc (s : State) : Option ℕ × State :=
  if alloc s.calls then (some s.next, s.add) else (none, { s with calls := s.calls + 1 })

def free (s : State) (p : Option ℕ) : State :=
  { s with
    live := s.live \ p.toFinset
    unused := fun a ha => s.unused a (Finset.mem_sdiff.mp ha).1 }

def cl_buffer_reference (s : State) (bo : ℕ) : State :=
  { s with bo_ref := Function.update s.bo_ref bo (s.bo_ref bo + 1) }

def cl_buffer_unreference (s : State) (bo : ℕ) : State :=
  { s with bo_ref := Function.update s.bo_ref bo (s.bo_ref bo - 1) }

def cl_program_add_ref (s : State) : State := { s with program_ref := s.program_ref + 1 }

def cl_program_delete (s : State) : State :=
  { s with program_ref := s.program_ref - 1, destroyed := s.destroyed || s.program_ref ≤ 1 }

/-- On a kernel that has one reference and no argument set, or on NULL. -/
def cl_kernel_delete (s : State) : Option Handle → State
  | none => s
  | some k =>
    let s := match k.kernel.bo with
      | some bo => cl_buffer_unreference s bo
      | none => s
    let s := if k.kernel.ref_its_program then cl_program_delete s else s
    let s := free s (k.kernel.blocks .curbe)
    let s := free s (k.kernel.blocks .args)
    let s := if k.kernel.image_sz ≠ 0 then free s (k.kernel.blocks .images) else s
    let s := free s (k.kernel.blocks .exec_info)
    free s (some k.address)

/-- The blocks of a duplicate, and whether they are allocated. -/
def fields (k : Kernel) : List (Field × Bool) :=
  [(.images, k.image_sz ≠ 0), (.exec_info, k.exec_info_n ≠ 0), (.args, true),
    (.curbe, k.curbe_sz ≠ 0)]

/-- `TRY_ALLOC_NO_ERR` for each field; an error is left with what there is. -/
def fill : List (Field × Bool) → Kernel → State → Except Kernel Kernel × State
  | [], k, s => (.ok k, s)
  | (_, false) :: fs, k, s => fill fs k s
  | (f, true) :: fs, k, s =>
    match calloc alloc s with
    | (some p, s) => fill fs { k with blocks := Function.update k.blocks f (some p) } s
    | (none, s) => (.error k, s)

/-- The duplicate before its blocks are allocated. -/
def blank (k : Kernel) : Kernel := { k with ref_its_program := false, blocks := fun _ => none }

def cl_kernel_dup (s : State) : Option Kernel → Option Handle × State
  | none => (none, s)
  | some k =>
    match calloc alloc s with
    | (none, s) => (none, cl_kernel_delete s none)
    | (some address, s) =>
      match fill alloc (fields k) (blank k) s with
      | (.error dup, s) => (none, cl_kernel_delete s (some ⟨address, dup⟩))
      | (.ok dup, s) =>
        let s := match k.bo with
          | some bo => cl_buffer_reference s bo
          | none => s
        (some ⟨address, { dup with ref_its_program := true }⟩, cl_program_add_ref s)

/-- The output array of a call. -/
abbrev Kernels := ℕ → Option Handle

/-- The loop at `error`, from index `i` on downwards. -/
def cleanUp (i : ℕ) (ker : Kernels) (s : State) : Kernels × State :=
  let s := cl_kernel_delete s (ker i)
  let ker := Function.update ker i none
  match i with
  | 0 => (ker, s)
  | 1 => (ker, s)
  | i + 2 => cleanUp (i + 1) ker s

/-- The kernels from index `i` on; is the result an error? -/
def create : List Kernel → ℕ → Kernels → State → Bool × Kernels × State
  | [], _, ker, s => (false, ker, s)
  | k :: p, i, ker, s =>
    match cl_kernel_dup alloc s (some k) with
    | (some dup, s) => create p (i + 1) (Function.update ker i (some dup)) s
    | (none, s) => (true, cleanUp i (Function.update ker i none) s)

def cl_program_create_kernels_in_program (p : List Kernel) (ker : Option Kernels) (s : State) :
    Bool × Option Kernels × State :=
  match ker with
  | none => (false, none, s)
  | some ker =>
    let (err, ker, s) := create alloc p 0 ker s
    (err, some ker, s)

end

/-! ### What is asked for -/

/-- Nothing that was allocated is left, and all counts are as before. -/
structure Traceless (s s' : State) : Prop where
  live : s'.live = s.live
  bo_ref : s'.bo_ref = s.bo_ref
  program_ref : s'.program_ref = s.program_ref
  destroyed : s'.destroyed = s.destroyed

/-- The allocations of a duplicate after the first. -/
def needed (k : Kernel) : ℕ := ((fields k).filter (·.2)).length

/-! ### One kernel -/

def Owns (blocks : Field → Option ℕ) (a : ℕ) : Prop := ∃ f, blocks f = some a

theorem owns_iff {blocks : Field → Option ℕ} {a : ℕ} :
    Owns blocks a ↔ blocks .images = some a ∨ blocks .exec_info = some a ∨
      blocks .args = some a ∨ blocks .curbe = some a := by
  constructor
  · rintro ⟨f, hf⟩
    cases f with
    | images => exact .inl hf
    | exec_info => exact .inr (.inl hf)
    | args => exact .inr (.inr (.inl hf))
    | curbe => exact .inr (.inr (.inr hf))
  · rintro (h | h | h | h)
    · exact ⟨_, h⟩
    · exact ⟨_, h⟩
    · exact ⟨_, h⟩
    · exact ⟨_, h⟩

theorem owns_update {blocks : Field → Option ℕ} {f : Field} (hf : blocks f = none) (p a : ℕ) :
    Owns (Function.update blocks f (some p)) a ↔ a = p ∨ Owns blocks a := by
  constructor
  · rintro ⟨g, hg⟩
    by_cases hgf : g = f
    · rw [hgf, Function.update_self] at hg
      exact .inl (Option.some.inj hg).symm
    · rw [Function.update_of_ne hgf] at hg
      exact .inr ⟨g, hg⟩
  · rintro (rfl | ⟨g, hg⟩)
    · exact ⟨f, Function.update_self ..⟩
    · refine ⟨g, ?_⟩
      rw [Function.update_of_ne (fun h => ?_)]
      · exact hg
      · rw [h, hf] at hg
        cases hg

theorem mem_free {s : State} {p : Option ℕ} {a : ℕ} :
    a ∈ (free s p).live ↔ a ∈ s.live ∧ p ≠ some a := by
  simp [free, Finset.mem_sdiff, Option.mem_toFinset, Option.mem_def]

/-- The references that a kernel gives back. -/
def released (s : State) (k : Kernel) : State :=
  let s := match k.bo with
    | some bo => cl_buffer_unreference s bo
    | none => s
  if k.ref_its_program then cl_program_delete s else s

theorem live_released (s : State) (k : Kernel) : (released s k).live = s.live := by
  cases hbo : k.bo <;> cases href : k.ref_its_program <;>
    simp [released, hbo, href, cl_buffer_unreference, cl_program_delete]

/-- The kernel and its blocks are released. -/
theorem mem_delete {s : State} {k : Handle} (himages : k.kernel.image_sz = 0 →
    k.kernel.blocks .images = none) {a : ℕ} :
    a ∈ (cl_kernel_delete s (some k)).live ↔
      a ∈ s.live ∧ ¬ Owns k.kernel.blocks a ∧ a ≠ k.address := by
  have hlive := live_released s k.kernel
  have hrun : ∀ t, t = released s k.kernel → cl_kernel_delete s (some k) =
      free (free (if k.kernel.image_sz ≠ 0 then
        free (free (free t (k.kernel.blocks .curbe)) (k.kernel.blocks .args))
          (k.kernel.blocks .images)
        else free (free t (k.kernel.blocks .curbe)) (k.kernel.blocks .args))
          (k.kernel.blocks .exec_info)) (some k.address) := by
    rintro t rfl
    rfl
  rw [hrun _ rfl, owns_iff]
  by_cases him : k.kernel.image_sz = 0
  · rw [if_neg (not_not.mpr him), himages him]
    simp only [mem_free, hlive]
    grind
  · rw [if_pos him]
    simp only [mem_free, hlive]
    grind

theorem bo_ref_delete (s : State) (k : Handle) : (cl_kernel_delete s (some k)).bo_ref =
    match k.kernel.bo with
    | some bo => Function.update s.bo_ref bo (s.bo_ref bo - 1)
    | none => s.bo_ref := by
  cases hbo : k.kernel.bo <;> cases href : k.kernel.ref_its_program <;>
    by_cases him : k.kernel.image_sz = 0 <;>
    simp [cl_kernel_delete, hbo, href, him, free, cl_buffer_unreference, cl_program_delete]

/-- A kernel without a reference to its program. -/
theorem program_delete (s : State) {k : Handle} (href : k.kernel.ref_its_program = false) :
    (cl_kernel_delete s (some k)).program_ref = s.program_ref ∧
      (cl_kernel_delete s (some k)).destroyed = s.destroyed := by
  cases hbo : k.kernel.bo <;> by_cases him : k.kernel.image_sz = 0 <;>
    simp [cl_kernel_delete, hbo, href, him, free, cl_buffer_unreference]

/-- The kernel, whether an error is left or not. -/
def either : Except Kernel Kernel → Kernel
  | .ok k => k
  | .error k => k

/-- What the allocations keep: the blocks that are not the kernel's, and all counts. -/
structure Filled (fs : List (Field × Bool)) (k : Kernel) (s : State) (k' : Kernel)
    (s' : State) : Prop where
  bo : k'.bo = k.bo
  image_sz : k'.image_sz = k.image_sz
  ref_its_program : k'.ref_its_program = k.ref_its_program
  blocks : ∀ f, (f, true) ∉ fs → k'.blocks f = k.blocks f
  bo_ref : s'.bo_ref = s.bo_ref
  program_ref : s'.program_ref = s.program_ref
  destroyed : s'.destroyed = s.destroyed
  live : ∀ a, a ∈ s'.live ∧ ¬ Owns k'.blocks a ↔ a ∈ s.live ∧ ¬ Owns k.blocks a

section

variable {alloc : ℕ → Bool}

/-- An allocation that succeeds. -/
theorem filled_step {s : State} {k : Kernel} {f : Field} (hf : k.blocks f = none)
    {fs : List (Field × Bool)} {k' : Kernel} {s' : State}
    (h : Filled fs { k with blocks := Function.update k.blocks f (some s.next) } s.add k' s') :
    Filled ((f, true) :: fs) k s k' s' := by
  refine ⟨h.bo, h.image_sz, h.ref_its_program, ?_, h.bo_ref, h.program_ref, h.destroyed, ?_⟩
  · intro g hg
    rw [List.mem_cons, not_or] at hg
    have hgf : g ≠ f := fun heq => hg.1 (by rw [heq])
    exact (h.blocks g hg.2).trans (Function.update_of_ne hgf ..)
  · intro a
    have hnew : s.next ∉ s.live := fun hin => Nat.lt_irrefl _ (s.unused _ hin)
    rw [h.live, owns_update hf, State.add, Finset.mem_insert]
    constructor
    · rintro ⟨rfl | ha, hnot⟩
      · exact absurd (.inl rfl) hnot
      · exact ⟨ha, fun hown => hnot (.inr hown)⟩
    · rintro ⟨ha, hnot⟩
      refine ⟨.inr ha, ?_⟩
      rintro (rfl | hown)
      · exact hnew ha
      · exact hnot hown

/-- The allocations of a kernel: an error is left iff one of them fails. -/
theorem fill_spec {fs : List (Field × Bool)} {k : Kernel} {s : State}
    (hnone : ∀ f ∈ fs.map (·.1), k.blocks f = none) (hnodup : (fs.map (·.1)).Nodup) :
    Filled fs k s (either (fill alloc fs k s).1) (fill alloc fs k s).2 ∧
      ((∃ k', (fill alloc fs k s).1 = .error k') ↔
        ∃ j < (fs.filter (·.2)).length, alloc (s.calls + j) = false) := by
  induction fs generalizing k s with
  | nil =>
    refine ⟨⟨rfl, rfl, rfl, fun _ _ => rfl, rfl, rfl, rfl, fun _ => Iff.rfl⟩, ?_⟩
    constructor
    · rintro ⟨k', hk'⟩
      cases hk'
    · rintro ⟨j, hj, -⟩
      exact absurd hj (Nat.not_lt_zero j)
  | cons f fs ih =>
    obtain ⟨f, needed⟩ := f
    have hrest : ∀ g ∈ fs.map (·.1), k.blocks g = none :=
      fun g hg => hnone g (List.mem_cons_of_mem _ hg)
    rw [List.map_cons, List.nodup_cons] at hnodup
    obtain ⟨hnot, hnodup⟩ := hnodup
    cases needed with
    | false =>
      obtain ⟨hfilled, hiff⟩ := ih (s := s) hrest hnodup
      refine ⟨{ hfilled with blocks := fun g hg => hfilled.blocks g fun h => hg ?_ }, hiff⟩
      exact List.mem_cons_of_mem _ h
    | true =>
      have hlen : (((f, true) :: fs).filter (·.2)).length = (fs.filter (·.2)).length + 1 := rfl
      rw [hlen, fill, calloc]
      by_cases halloc : alloc s.calls = true
      · rw [if_pos halloc]
        have hf : k.blocks f = none := hnone f (by simp)
        have hset : ∀ g ∈ fs.map (·.1), Function.update k.blocks f (some s.next) g = none := by
          intro g hg
          have hgf : g ≠ f := fun heq => hnot (heq ▸ hg)
          rw [Function.update_of_ne hgf]
          exact hrest g hg
        obtain ⟨hfilled, hiff⟩ := ih (s := s.add)
          (k := { k with blocks := Function.update k.blocks f (some s.next) }) hset hnodup
        refine ⟨filled_step hf hfilled, hiff.trans ?_⟩
        constructor
        · rintro ⟨j, hj, hfail⟩
          refine ⟨j + 1, by omega, ?_⟩
          rw [← Nat.add_assoc, Nat.add_right_comm]
          exact hfail
        · rintro ⟨j, hj, hfail⟩
          cases j with
          | zero => exact absurd halloc (by rw [← Nat.add_zero s.calls, hfail]; decide)
          | succ j =>
            refine ⟨j, by omega, ?_⟩
            rw [← Nat.add_assoc, Nat.add_right_comm] at hfail
            exact hfail
      · rw [if_neg halloc]
        refine ⟨⟨rfl, rfl, rfl, fun _ _ => rfl, rfl, rfl, rfl, fun _ => Iff.rfl⟩, ?_⟩
        refine iff_of_true ⟨k, rfl⟩ ⟨0, by omega, ?_⟩
        exact Bool.eq_false_iff.mpr halloc

/-- The counts after a duplicate of a kernel that has a code buffer. -/
def unreferenced (s : State) (bo : Option ℕ) : ℕ → ℤ :=
  match bo with
  | some bo => Function.update s.bo_ref bo (s.bo_ref bo - 1)
  | none => s.bo_ref

theorem unreferenced_eq_iff {s : State} {bo : Option ℕ} :
    unreferenced s bo = s.bo_ref ↔ bo = none := by
  cases bo with
  | none => exact iff_of_true rfl rfl
  | some bo =>
    refine iff_of_false (fun h => ?_) (by simp)
    have hbo := congrFun h bo
    rw [unreferenced, Function.update_self] at hbo
    omega

/-- The blocks of a duplicate. -/
theorem fill_blank (alloc : ℕ → Bool) (s : State) (k : Kernel) :
    Filled (fields k) (blank k) s (either (fill alloc (fields k) (blank k) s).1)
        (fill alloc (fields k) (blank k) s).2 ∧
      ((∃ k', (fill alloc (fields k) (blank k) s).1 = .error k') ↔
        ∃ j < needed k, alloc (s.calls + j) = false) :=
  fill_spec (fun _ _ => rfl) (by simp [fields])

theorem dup_first {s : State} (h : alloc s.calls = false) (k : Kernel) :
    cl_kernel_dup alloc s (some k) = (none, { s with calls := s.calls + 1 }) := by
  rw [cl_kernel_dup, calloc, h]
  rfl

theorem dup_error {s s' : State} (h : alloc s.calls = true) {k k' : Kernel}
    (hfill : fill alloc (fields k) (blank k) s.add = (.error k', s')) :
    cl_kernel_dup alloc s (some k) = (none, cl_kernel_delete s' (some ⟨s.next, k'⟩)) := by
  simp only [cl_kernel_dup, calloc, h, if_true, hfill]

theorem dup_ok {s s' : State} (h : alloc s.calls = true) {k k' : Kernel}
    (hfill : fill alloc (fields k) (blank k) s.add = (.ok k', s')) :
    (cl_kernel_dup alloc s (some k)).1 = some ⟨s.next, { k' with ref_its_program := true }⟩ := by
  simp only [cl_kernel_dup, calloc, h, if_true, hfill]

/-- One of the allocations of a duplicate fails. -/
def DupFails (alloc : ℕ → Bool) (s : State) (k : Kernel) : Prop :=
  alloc s.calls = false ∨ ∃ j < needed k, alloc (s.calls + 1 + j) = false

theorem dup_eq_none_iff (s : State) (k : Kernel) :
    (cl_kernel_dup alloc s (some k)).1 = none ↔ DupFails alloc s k := by
  cases h : alloc s.calls with
  | false =>
    rw [dup_first h]
    exact iff_of_true rfl (.inl h)
  | true =>
    have hiff := (fill_blank alloc s.add k).2
    rcases hfill : fill alloc (fields k) (blank k) s.add with ⟨r, s'⟩
    rw [hfill] at hiff
    cases r with
    | error k' =>
      rw [dup_error h hfill]
      exact iff_of_true rfl (.inr (hiff.mp ⟨k', rfl⟩))
    | ok k' =>
      rw [dup_ok h hfill]
      refine iff_of_false (by simp) ?_
      rintro (hfirst | hfail)
      · rw [h] at hfirst
        cases hfirst
      · obtain ⟨k'', hk''⟩ := hiff.mpr hfail
        cases hk''

/-- A duplicate that fails releases its blocks, and where the first allocation succeeded, a
reference to the code buffer too. -/
theorem dup_failed {s : State} {k : Kernel} (hnone : (cl_kernel_dup alloc s (some k)).1 = none) :
    (cl_kernel_dup alloc s (some k)).2.live = s.live ∧
      (cl_kernel_dup alloc s (some k)).2.program_ref = s.program_ref ∧
      (cl_kernel_dup alloc s (some k)).2.destroyed = s.destroyed ∧
      (cl_kernel_dup alloc s (some k)).2.bo_ref =
        if alloc s.calls then unreferenced s k.bo else s.bo_ref := by
  cases h : alloc s.calls with
  | false =>
    rw [dup_first h]
    exact ⟨rfl, rfl, rfl, rfl⟩
  | true =>
    have hfilled := (fill_blank alloc s.add k).1
    rcases hfill : fill alloc (fields k) (blank k) s.add with ⟨r, s'⟩
    rw [hfill] at hfilled
    cases r with
    | ok k' =>
      rw [dup_ok h hfill] at hnone
      cases hnone
    | error k' =>
      have hprogram := program_delete s' (k := ⟨s.next, k'⟩) hfilled.ref_its_program
      have himages : k'.image_sz = 0 → k'.blocks .images = none := by
        intro hzero
        have hsz : k.image_sz = 0 := hfilled.image_sz.symm.trans hzero
        refine hfilled.blocks .images ?_
        simp [fields, hsz]
      rw [dup_error h hfill]
      refine ⟨?_, hprogram.1.trans hfilled.program_ref, hprogram.2.trans hfilled.destroyed, ?_⟩
      · ext a
        have hnew : s.next ∉ s.live := fun hin => Nat.lt_irrefl _ (s.unused _ hin)
        have hblank : ¬ Owns (blank k).blocks a := by
          rintro ⟨f, hf⟩
          cases hf
        have hlive : a ∈ s'.live ∧ ¬ Owns k'.blocks a ↔
            (a = s.next ∨ a ∈ s.live) ∧ ¬ Owns (blank k).blocks a := by
          rw [← Finset.mem_insert]
          exact hfilled.live a
        rw [mem_delete himages, ← and_assoc, hlive]
        constructor
        · rintro ⟨⟨ha | ha, -⟩, hne⟩
          · exact absurd ha hne
          · exact ha
        · intro ha
          exact ⟨⟨.inr ha, hblank⟩, fun heq : a = s.next => hnew (heq ▸ ha)⟩
      · have hbo : k'.bo = k.bo := hfilled.bo
        have href : s'.bo_ref = s.bo_ref := hfilled.bo_ref
        rw [bo_ref_delete, if_pos rfl]
        simp only [hbo, href]
        rfl

theorem traceless_dup_iff {s : State} {k : Kernel}
    (hnone : (cl_kernel_dup alloc s (some k)).1 = none) :
    Traceless s (cl_kernel_dup alloc s (some k)).2 ↔ alloc s.calls = false ∨ k.bo = none := by
  obtain ⟨hlive, hprogram, hdestroyed, hbo⟩ := dup_failed hnone
  constructor
  · intro h
    have heq := hbo.symm.trans h.bo_ref
    cases hcalls : alloc s.calls with
    | false => exact .inl rfl
    | true =>
      rw [hcalls, if_pos rfl] at heq
      exact .inr (unreferenced_eq_iff.mp heq)
  · intro h
    refine ⟨hlive, hbo.trans ?_, hprogram, hdestroyed⟩
    rcases h with hcalls | hnil
    · rw [hcalls]
      rfl
    · rw [unreferenced_eq_iff.mpr hnil, ite_self]

/-! ### All kernels of a program -/

/-- The clean-up that starts behind the first kernel does not get to it. -/
theorem cleanUp_zero (i : ℕ) (ker : Kernels) (s : State) :
    (cleanUp (i + 1) ker s).1 0 = ker 0 := by
  induction i generalizing ker s with
  | zero => exact Function.update_of_ne Nat.zero_ne_one none ker
  | succ i ih =>
    rw [cleanUp, ih]
    exact Function.update_of_ne (by omega) ..

theorem create_zero (p : List Kernel) (i : ℕ) (ker : Kernels) (s : State) :
    (create alloc p (i + 1) ker s).2.1 0 = ker 0 := by
  induction p generalizing i ker s with
  | nil => rfl
  | cons k p ih =>
    rw [create]
    split
    · rw [ih]
      exact Function.update_of_ne (by omega) ..
    · rw [cleanUp_zero]
      exact Function.update_of_ne (by omega) ..

end

/-- No kernel is in the array, and nothing else is left. -/
def CreatesNothing (alloc : ℕ → Bool) (s : State) (p : List Kernel) (ker : Kernels) : Prop :=
  Traceless s (cl_program_create_kernels_in_program alloc p (some ker) s).2.2 ∧
    ∀ ker', (cl_program_create_kernels_in_program alloc p (some ker) s).2.1 = some ker' →
      ∀ i < p.length, ker' i = none

/-- The first kernel's duplicate fails before it takes the code buffer, and the rest of the array is
NULL from the start. -/
def FirstFails (alloc : ℕ → Bool) (s : State) (p : List Kernel) (ker : Kernels) : Prop :=
  (∃ k, p.head? = some k ∧ DupFails alloc s k ∧ (alloc s.calls = false ∨ k.bo = none)) ∧
    ∀ i < p.length, i ≠ 0 → ker i = none

theorem createsNothing_iff {alloc : ℕ → Bool} {s : State} {p : List Kernel} {ker : Kernels}
    (herr : (cl_program_create_kernels_in_program alloc p (some ker) s).1 = true) :
    CreatesNothing alloc s p ker ↔ FirstFails alloc s p ker := by
  cases p with
  | nil => cases herr
  | cons k p =>
    simp only [CreatesNothing, cl_program_create_kernels_in_program, Option.some.injEq,
      forall_eq']
    rw [create]
    rcases hdup : cl_kernel_dup alloc s (some k) with ⟨handle, s'⟩
    cases handle with
    | none =>
      have hnone : (cl_kernel_dup alloc s (some k)).1 = none := by rw [hdup]
      have hiff := traceless_dup_iff hnone
      rw [hdup] at hiff
      have hclean : cleanUp 0 (Function.update ker 0 none) s' =
          (Function.update (Function.update ker 0 none) 0 none, s') := by
        rw [cleanUp, Function.update_self]
        rfl
      simp only [hclean, Function.update_idem]
      constructor
      · rintro ⟨htrace, hker⟩
        refine ⟨⟨k, rfl, (dup_eq_none_iff s k).mp hnone, hiff.mp htrace⟩, fun i hi hne => ?_⟩
        have hi' := hker i hi
        rwa [Function.update_of_ne hne] at hi'
      · rintro ⟨⟨k', hk', -, hfirst⟩, hker⟩
        cases hk'
        refine ⟨hiff.mpr hfirst, fun i hi => ?_⟩
        by_cases hzero : i = 0
        · rw [hzero, Function.update_self]
        · rw [Function.update_of_ne hzero]
          exact hker i hi hzero
    | some handle =>
      refine iff_of_false ?_ ?_
      · rintro ⟨-, hker⟩
        have hzero := hker 0 (by simp)
        simp only [create_zero, Function.update_self] at hzero
        cases hzero
      · rintro ⟨⟨k', hk', hfails, -⟩, -⟩
        cases hk'
        have hnone := (dup_eq_none_iff s k).mpr hfails
        rw [hdup] at hnone
        cases hnone

/-- A failed duplicate leaves no trace iff the first allocation failed or there is no code buffer; a
failed list of duplicates iff that is so of the first of them, in an array that was NULL behind
it. -/
theorem failed_creation_iff (alloc : ℕ → Bool) (s : State) :
    (∀ k, (cl_kernel_dup alloc s (some k)).1 = none →
      (Traceless s (cl_kernel_dup alloc s (some k)).2 ↔ alloc s.calls = false ∨ k.bo = none)) ∧
    ∀ p ker, (cl_program_create_kernels_in_program alloc p (some ker) s).1 = true →
      (CreatesNothing alloc s p ker ↔ FirstFails alloc s p ker) :=
  ⟨fun _ => traceless_dup_iff, fun _ _ => createsNothing_iff⟩

/-- One program with a kernel that has a code buffer and one image. -/
def start : State := ⟨∅, 0, by simp, fun _ => 1, 1, false, 0⟩

def sample : Kernel := ⟨some 7, 2, 64, 1, 0, false, fun _ => none⟩

/-- A kernel without a code buffer whose images cannot be allocated. -/
theorem failed_creation_first :
    (cl_program_create_kernels_in_program (fun n => n == 0) [{ sample with bo := none }, sample]
        (some fun _ => none) start).1 = true ∧
      CreatesNothing (fun n => n == 0) start [{ sample with bo := none }, sample]
        (fun _ => none) := by
  have herr : (cl_program_create_kernels_in_program (fun n => n == 0)
      [{ sample with bo := none }, sample] (some fun _ => none) start).1 = true := by decide
  refine ⟨herr, ((failed_creation_iff _ start).2 _ _ herr).mpr ⟨?_, fun _ _ _ => rfl⟩⟩
  exact ⟨_, rfl, .inr ⟨0, by decide, rfl⟩, .inr rfl⟩

/-- The images of the duplicate cannot be allocated: the code buffer loses a reference. -/
theorem not_traceless_images :
    (cl_kernel_dup (fun n => n == 0) start (some sample)).1 = none ∧
      ¬ Traceless start (cl_kernel_dup (fun n => n == 0) start (some sample)).2 := by
  refine ⟨by decide, fun h => ?_⟩
  have hbo := congrFun h.bo_ref 7
  revert hbo
  decide

end KernelDup

end Runtime
