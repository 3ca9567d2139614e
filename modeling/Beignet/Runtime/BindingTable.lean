/-
The binding table of a launch: `cl_command_queue_bind_surface`, `cl_command_queue_bind_image` and
`cl_command_queue_bind_exec_info` in `cl_command_queue.c`, and `cl_device_enqueue_bind_buffer` in
`cl_device_enqueue.c`, in the order of `cl_command_queue_ND_range_gen7`.

A binding is an index with its object.  The first two functions leave the largest index that is in
use, the last two start at that index.

* `top_mem` — the index that is left by the arguments is in use;
* `execLoop_eq` — the indices of the other pointers, when there is no argument;
* **`bindings_unique_iff`** — when no index is bound twice.
-/
import Mathlib

namespace Runtime

namespace BindingTable

abbrev BTI_WORKAROUND_IMAGE_OFFSET : ℕ := 128
abbrev BTI_MAX_ID : ℕ := 253

/-! ### The code -/

inductive ArgType where
  | GBE_ARG_VALUE
  | GBE_ARG_GLOBAL_PTR
  | GBE_ARG_CONSTANT_PTR
  | GBE_ARG_LOCAL_PTR
  | GBE_ARG_IMAGE
  | GBE_ARG_SAMPLER
  | GBE_ARG_PIPE
  deriving DecidableEq

open ArgType

/-- An argument, with its place in the curbe; `ω` are the memory objects. -/
structure Arg (ω : Type) where
  type : ArgType
  mem : Option ω
  curbe : ℤ
  bti : BitVec 8

structure Image (ω : Type) where
  mem : ω
  idx : BitVec 8
  /-- `image_type == CL_MEM_OBJECT_IMAGE1D_ARRAY` -/
  array1d : Bool
  /-- the format is `CL_R` with `CL_UNORM_INT8` -/
  rUnorm8 : Bool

/-- `_cl_kernel`, as far as it binds surfaces. -/
structure Kernel (ω : Type) where
  ocl_version : ℕ
  args : List (Arg ω)
  vme : Bool
  /-- is there a `cl_gpgpu_bind_image_for_vme`? -/
  bindForVme : Bool
  images : List (Image ω)
  /-- the objects that the pointers of `exec_info` resolve to -/
  exec_info : List (Option ω)
  /-- the place of the device-enqueue buffer in the curbe -/
  enqueue : ℤ
  enqueueMem : ω

structure Binding (ω : Type) where
  bti : ℕ
  mem : ω
  /-- is it the second index of an image? -/
  second : Bool

variable {ω : Type}

/-- Is the argument bound, and to which object? -/
def surface (k : Kernel ω) (arg : Arg ω) : Option (Binding ω) :=
  if (arg.type = GBE_ARG_GLOBAL_PTR ∨ arg.type = GBE_ARG_CONSTANT_PTR ∧ 200 ≤ k.ocl_version ∨
      arg.type = GBE_ARG_PIPE) ∧ 0 ≤ arg.curbe then
    arg.mem.map fun mem => ⟨arg.bti.toNat, mem, false⟩
  else none

def bind_surface (k : Kernel ω) (max_bti : ℕ) : List (Binding ω) × ℕ :=
  let bindings := k.args.filterMap (surface k)
  (bindings, bindings.foldl (fun max_bti b => if max_bti < b.bti then b.bti else max_bti) max_bti)

/-- The second index of an image. -/
def workaround (k : Kernel ω) (image : Image ω) : List (Binding ω) :=
  if image.array1d ∨ image.rUnorm8 ∧ k.bindForVme then
    [⟨image.idx.toNat + BTI_WORKAROUND_IMAGE_OFFSET, image.mem, true⟩]
  else []

/-- Images of other formats cannot be bound for motion estimation. -/
def bind_image (k : Kernel ω) (max_bti : ℕ) : Option (List (Binding ω) × ℕ) :=
  if k.vme ∧ ∃ image ∈ k.images, ¬ image.rUnorm8 then none
  else some
    (k.images.flatMap fun image => ⟨image.idx.toNat, image.mem, false⟩ :: workaround k image,
      k.images.foldl (fun max_bti image =>
        if max_bti < image.idx.toNat then image.idx.toNat else max_bti) max_bti)

/-- The loop of `cl_command_queue_bind_exec_info`. -/
def execLoop (max_bti : ℕ) : List (Option ω) → ℕ → Option (List (Binding ω) × ℕ)
  | [], bti => some ([], bti)
  | none :: mems, bti => execLoop max_bti mems bti
  | some mem :: mems, bti =>
    let next := if bti + 1 = BTI_WORKAROUND_IMAGE_OFFSET then
        max_bti + BTI_WORKAROUND_IMAGE_OFFSET
      else bti + 1
    if next < BTI_MAX_ID then do
      let (bindings, bti') ← execLoop max_bti mems next
      some (⟨bti, mem, false⟩ :: bindings, bti')
    else none

def bind_exec_info (k : Kernel ω) (max_bti : ℕ) : Option (List (Binding ω) × ℕ) :=
  execLoop max_bti k.exec_info max_bti

def enqueue_bind_buffer (k : Kernel ω) (max_bti : ℕ) : List (Binding ω) :=
  if 0 < k.enqueue then [⟨max_bti, k.enqueueMem, false⟩] else []

/-- All bindings of a launch that is not refused. -/
def bind (k : Kernel ω) : Option (List (Binding ω)) := do
  let (surfaces, max_bti) := bind_surface k 0
  let (images, max_bti) ← bind_image k max_bti
  let (exec, max_bti) ← bind_exec_info k max_bti
  some (surfaces ++ images ++ exec ++ enqueue_bind_buffer k max_bti)

/-! ### What is asked for -/

/-- The indices of the arguments that are bound. -/
def own (k : Kernel ω) : List ℕ :=
  (k.args.filterMap (surface k)).map (·.bti) ++ k.images.map fun image => image.idx.toNat

/-- The second indices of the images that have one. -/
def second (k : Kernel ω) : List ℕ := (k.images.flatMap (workaround k)).map (·.bti)

/-- No index is bound twice, all are in the table, and those that are not a second index of an image
differ from them all. -/
structure Unique (k : Kernel ω) (bindings : List (Binding ω)) : Prop where
  nodup : (bindings.map (·.bti)).Nodup
  lt : ∀ b ∈ bindings, b.bti < BTI_MAX_ID
  workaround : ∀ b ∈ bindings, b.second = false →
    ∀ image ∈ k.images, b.bti ≠ image.idx.toNat + BTI_WORKAROUND_IMAGE_OFFSET

/-- The indices that the arguments have anyway are in the table and no second index of an image. -/
structure Placed (k : Kernel ω) : Prop where
  own : ∀ bti ∈ own k, bti < BTI_MAX_ID ∧
    ∀ image ∈ k.images, bti ≠ image.idx.toNat + BTI_WORKAROUND_IMAGE_OFFSET
  second : ∀ bti ∈ second k, bti < BTI_MAX_ID

/-! ### The arguments -/

theorem foldl_max {α : Type} (f : α → ℕ) (xs : List α) (m : ℕ) :
    xs.foldl (fun m x => if m < f x then f x else m) m = (xs.map f).foldl max m := by
  induction xs generalizing m with
  | nil => rfl
  | cons x xs ih =>
    rw [List.foldl_cons, List.map_cons, List.foldl_cons, ih]
    congr 1
    split
    · omega
    · omega

/-- The index that the arguments leave. -/
def top (k : Kernel ω) : ℕ := (own k).foldl max 0

/-- It is in use, unless nothing is bound. -/
theorem top_mem {k : Kernel ω} (h : own k ≠ []) : top k ∈ own k := by
  have hmax : ∀ (xs : List ℕ) (m : ℕ), xs.foldl max m = m ∨ xs.foldl max m ∈ xs := by
    intro xs
    induction xs with
    | nil => exact fun m => .inl rfl
    | cons x xs ih =>
      intro m
      rw [List.foldl_cons]
      rcases ih (max m x) with heq | hmem
      · rw [heq]
        rcases max_choice m x with hm | hx
        · exact .inl hm
        · rw [hx]
          exact .inr List.mem_cons_self
      · exact .inr (List.mem_cons_of_mem _ hmem)
  obtain ⟨x, xs, hcons⟩ := List.exists_cons_of_ne_nil h
  rw [top, hcons, List.foldl_cons, Nat.zero_max]
  rcases hmax xs x with heq | hmem
  · rw [heq]
    exact List.mem_cons_self
  · exact List.mem_cons_of_mem _ hmem

/-- The bindings of the arguments. -/
def arguments (k : Kernel ω) : List (Binding ω) :=
  k.args.filterMap (surface k) ++
    k.images.flatMap fun image => ⟨image.idx.toNat, image.mem, false⟩ :: workaround k image

/-- The bindings of a launch, one part after the other. -/
theorem bind_eq_some {k : Kernel ω} {bindings : List (Binding ω)} :
    bind k = some bindings → ∃ exec bti, execLoop (top k) k.exec_info (top k) = some (exec, bti) ∧
      bindings = arguments k ++ exec ++ enqueue_bind_buffer k bti := by
  intro h
  simp only [bind, bind_image, bind_exec_info, Option.bind_eq_bind] at h
  split at h
  · cases h
  · have htop : k.images.foldl (fun max_bti image =>
        if max_bti < image.idx.toNat then image.idx.toNat else max_bti) (bind_surface k 0).2 =
        top k := by
      rw [foldl_max, bind_surface, foldl_max, ← List.foldl_append]
      rfl
    rw [Option.bind_some, htop, Option.bind_eq_some_iff] at h
    obtain ⟨⟨exec, bti⟩, hexec, h⟩ := h
    exact ⟨exec, bti, hexec, (Option.some.inj h).symm⟩

/-- The indices of the arguments, in another order. -/
theorem arguments_perm (k : Kernel ω) :
    ((arguments k).map (·.bti)).Perm (own k ++ second k) := by
  rw [arguments, own, second, List.map_append, List.append_assoc]
  refine List.Perm.append_left _ ?_
  rw [List.map_flatMap, List.map_flatMap]
  simp only [List.map_cons]
  exact (List.map_append_flatMap_perm _ _ _).symm

theorem second_eq (k : Kernel ω) :
    second k = (k.images.filter fun image => image.array1d || image.rUnorm8 && k.bindForVme).map
      fun image => image.idx.toNat + BTI_WORKAROUND_IMAGE_OFFSET := by
  rw [second]
  induction k.images with
  | nil => rfl
  | cons image images ih =>
    rw [List.flatMap_cons, List.map_append, ih, List.filter_cons]
    by_cases h : image.array1d ∨ image.rUnorm8 ∧ k.bindForVme
    · have hb : (image.array1d || image.rUnorm8 && k.bindForVme) = true := by simpa using h
      rw [workaround, if_pos h, if_pos hb]
      rfl
    · have hb : ¬ (image.array1d || image.rUnorm8 && k.bindForVme) = true := by simpa using h
      rw [workaround, if_neg h, if_neg hb]
      rfl

/-- Images with different indices have different second indices. -/
theorem second_nodup {k : Kernel ω} (h : (own k).Nodup) : (second k).Nodup := by
  have himages : (k.images.map fun image => image.idx.toNat).Nodup := (List.nodup_append.mp h).2.1
  rw [second_eq]
  have hsub := himages.sublist ((List.filter_sublist (p := fun image : Image ω =>
    image.array1d || image.rUnorm8 && k.bindForVme)).map fun image => image.idx.toNat)
  have hmap := hsub.map (fun a b (hab : a + BTI_WORKAROUND_IMAGE_OFFSET =
    b + BTI_WORKAROUND_IMAGE_OFFSET) => by omega)
  rw [List.map_map] at hmap
  exact hmap

/-- A binding of an argument, or a second one of an image. -/
theorem mem_arguments {k : Kernel ω} {b : Binding ω} (h : b ∈ arguments k) :
    b.second = false ∧ b.bti ∈ own k ∨ b.second = true ∧ b.bti ∈ second k := by
  rcases List.mem_append.mp h with hs | hi
  · refine .inl ⟨?_, List.mem_append_left _ (List.mem_map_of_mem hs)⟩
    obtain ⟨arg, -, harg⟩ := List.mem_filterMap.mp hs
    rw [surface] at harg
    split at harg
    · obtain ⟨mem, -, rfl⟩ := Option.map_eq_some_iff.mp harg
      rfl
    · cases harg
  · obtain ⟨image, himage, hb⟩ := List.mem_flatMap.mp hi
    rcases List.mem_cons.mp hb with rfl | hb
    · exact .inl ⟨rfl, List.mem_append_right _ (List.mem_map_of_mem himage)⟩
    · refine .inr ⟨?_, List.mem_map_of_mem (List.mem_flatMap.mpr ⟨image, himage, hb⟩)⟩
      rw [workaround] at hb
      split at hb
      · rw [List.mem_singleton.mp hb]
      · exact absurd hb List.not_mem_nil

/-- Each index of an argument has a binding that is not a second one. -/
theorem exists_of_mem_own {k : Kernel ω} {bti : ℕ} (h : bti ∈ own k) :
    ∃ b ∈ arguments k, b.bti = bti ∧ b.second = false := by
  rcases List.mem_append.mp h with hs | hi
  · obtain ⟨b, hb, rfl⟩ := List.mem_map.mp hs
    have hmem : b ∈ arguments k := List.mem_append_left _ hb
    refine ⟨b, hmem, rfl, ?_⟩
    obtain ⟨arg, -, harg⟩ := List.mem_filterMap.mp hb
    rw [surface] at harg
    split at harg
    · obtain ⟨mem, -, rfl⟩ := Option.map_eq_some_iff.mp harg
      rfl
    · cases harg
  · obtain ⟨image, himage, rfl⟩ := List.mem_map.mp hi
    exact ⟨_, List.mem_append_right _ (List.mem_flatMap.mpr ⟨image, himage, List.mem_cons_self⟩),
      rfl, rfl⟩

/-! ### The other pointers -/

/-- The first pointer gets the index that the loop starts with. -/
theorem execLoop_head {m : ℕ} {mems : List (Option ω)} {n : ℕ} {exec : List (Binding ω)} {n' : ℕ}
    (h : execLoop m mems n = some (exec, n')) :
    (exec = [] ∧ n' = n ∧ ∀ mem ∈ mems, mem = none) ∨
      ∃ b exec', exec = b :: exec' ∧ b.bti = n ∧ ∃ mem ∈ mems, mem ≠ none := by
  induction mems with
  | nil =>
    cases h
    exact .inl ⟨rfl, rfl, fun mem hmem => absurd hmem List.not_mem_nil⟩
  | cons mem mems ih =>
    cases mem with
    | none =>
      rcases ih h with ⟨hexec, hn, hall⟩ | ⟨b, exec', hexec, hb, mem, hmem, hne⟩
      · refine .inl ⟨hexec, hn, fun mem hmem => ?_⟩
        rcases List.mem_cons.mp hmem with rfl | hmem
        · rfl
        · exact hall mem hmem
      · exact .inr ⟨b, exec', hexec, hb, mem, List.mem_cons_of_mem _ hmem, hne⟩
    | some mem =>
      simp only [execLoop] at h
      generalize (if n + 1 = BTI_WORKAROUND_IMAGE_OFFSET then m + BTI_WORKAROUND_IMAGE_OFFSET
        else n + 1) = next at h
      split at h
      · simp only [Option.bind_eq_bind, Option.bind_eq_some_iff, Option.some.injEq,
          Prod.mk.injEq] at h
        obtain ⟨⟨exec', n''⟩, -, rfl, -⟩ := h
        exact .inr ⟨_, exec', rfl, rfl, some mem, List.mem_cons_self, by simp⟩
      · cases h

/-- Without an argument there is no jump: the indices are those from the start on. -/
theorem execLoop_eq {mems : List (Option ω)} {n : ℕ} {exec : List (Binding ω)} {n' : ℕ}
    (hlt : n < BTI_MAX_ID) (h : execLoop 0 mems n = some (exec, n')) :
    exec.map (·.bti) = List.range' n exec.length ∧ n' = n + exec.length ∧ n' < BTI_MAX_ID := by
  induction mems generalizing n exec with
  | nil =>
    cases h
    exact ⟨rfl, rfl, hlt⟩
  | cons mem mems ih =>
    cases mem with
    | none => exact ih hlt h
    | some mem =>
      have hnext : (if n + 1 = BTI_WORKAROUND_IMAGE_OFFSET then 0 + BTI_WORKAROUND_IMAGE_OFFSET
          else n + 1) = n + 1 := by
        split
        · omega
        · rfl
      rw [execLoop, hnext] at h
      split at h
      · next hlt' =>
        simp only [Option.bind_eq_bind, Option.bind_eq_some_iff, Option.some.injEq,
          Prod.mk.injEq] at h
        obtain ⟨⟨exec', n''⟩, hrest, rfl, rfl⟩ := h
        obtain ⟨hmap, hn, hmax⟩ := ih hlt' hrest
        refine ⟨?_, ?_, hmax⟩
        · rw [List.map_cons, hmap, List.length_cons, List.range'_succ]
        · have hn : n'' = n + 1 + exec'.length := hn
          rw [List.length_cons]
          show n'' = n + (exec'.length + 1)
          omega
      · cases h

/-! ### The result -/

theorem nodup_arguments {k : Kernel ω} (hdistinct : (own k).Nodup) (hplaced : Placed k) :
    ((arguments k).map (·.bti)).Nodup := by
  refine (arguments_perm k).nodup_iff.mpr (List.nodup_append.mpr
    ⟨hdistinct, second_nodup hdistinct, fun bti hbti bti' hbti' heq => ?_⟩)
  rw [second_eq] at hbti'
  obtain ⟨image, himage, rfl⟩ := List.mem_map.mp hbti'
  exact (hplaced.own bti hbti).2 image (List.mem_filter.mp himage).1 heq

/-- A launch that is not refused, of a kernel whose arguments have different indices: the bindings
are unique iff those of the arguments are in place, and either nothing else is bound or no
argument. -/
theorem bindings_unique_iff {k : Kernel ω} {bindings : List (Binding ω)}
    (hdistinct : (own k).Nodup) (h : bind k = some bindings) :
    Unique k bindings ↔ Placed k ∧
      ((∀ mem ∈ k.exec_info, mem = none) ∧ k.enqueue ≤ 0 ∨ own k = []) := by
  obtain ⟨exec, bti, hexec, rfl⟩ := bind_eq_some h
  constructor
  · intro hunique
    have hmem : ∀ b ∈ arguments k, b ∈ arguments k ++ exec ++ enqueue_bind_buffer k bti :=
      fun b hb => List.mem_append_left _ (List.mem_append_left _ hb)
    refine ⟨⟨fun i hi => ?_, fun i hi => ?_⟩, ?_⟩
    · obtain ⟨b, hb, rfl, hsecond⟩ := exists_of_mem_own hi
      exact ⟨hunique.lt b (hmem b hb), hunique.workaround b (hmem b hb) hsecond⟩
    · have hi' : i ∈ (arguments k).map (·.bti) :=
        (arguments_perm k).mem_iff.mpr (List.mem_append_right _ hi)
      obtain ⟨b, hb, rfl⟩ := List.mem_map.mp hi'
      exact hunique.lt b (hmem b hb)
    · by_contra hboth
      rw [not_or] at hboth
      obtain ⟨hextra, hown⟩ := hboth
      -- the largest index of the arguments is bound once more
      have htop : top k ∈ (arguments k).map (·.bti) :=
        (arguments_perm k).mem_iff.mpr (List.mem_append_left _ (top_mem hown))
      have hnodup := hunique.nodup
      rw [List.append_assoc, List.map_append, List.nodup_append] at hnodup
      refine hnodup.2.2 _ htop _ ?_ rfl
      rw [List.map_append]
      rcases execLoop_head hexec with ⟨hnil, rfl, hall⟩ | ⟨b, exec', rfl, hb, -⟩
      · have hpos : 0 < k.enqueue := not_le.mp fun hle => hextra ⟨hall, hle⟩
        rw [enqueue_bind_buffer, if_pos hpos]
        exact List.mem_append_right _ List.mem_cons_self
      · rw [List.map_cons, hb]
        exact List.mem_append_left _ List.mem_cons_self
  · rintro ⟨hplaced, ⟨hnone, henqueue⟩ | hown⟩
    · rcases execLoop_head hexec with ⟨rfl, -, -⟩ | ⟨b, exec', -, -, mem, hmem, hne⟩
      · rw [enqueue_bind_buffer, if_neg (not_lt.mpr henqueue), List.append_nil, List.append_nil]
        refine ⟨nodup_arguments hdistinct hplaced, fun b hb => ?_, fun b hb hsecond => ?_⟩
        · rcases mem_arguments hb with ⟨-, hi⟩ | ⟨-, hi⟩
          · exact (hplaced.own _ hi).1
          · exact hplaced.second _ hi
        · rcases mem_arguments hb with ⟨-, hi⟩ | ⟨hs, -⟩
          · exact (hplaced.own _ hi).2
          · exact absurd (hsecond.symm.trans hs) Bool.false_ne_true
      · exact absurd (hnone mem hmem) hne
    · -- the other bindings are the first ones of the table
      have hsurfaces : k.args.filterMap (surface k) = [] :=
        List.map_eq_nil_iff.mp (List.append_eq_nil_iff.mp hown).1
      have himages : k.images = [] := List.map_eq_nil_iff.mp (List.append_eq_nil_iff.mp hown).2
      have hargs : arguments k = [] := by
        rw [arguments, hsurfaces, himages]
        rfl
      have htop : top k = 0 := by
        rw [top, hown]
        rfl
      rw [htop] at hexec
      obtain ⟨hmap, hbti, hlt⟩ := execLoop_eq (by decide) hexec
      rw [Nat.zero_add] at hbti
      have hle : ∀ b ∈ exec, b.bti < exec.length := by
        intro b hb
        have hin : b.bti ∈ exec.map (·.bti) := List.mem_map_of_mem hb
        rw [hmap, List.mem_range'_1] at hin
        omega
      have henq : ∀ b ∈ enqueue_bind_buffer k bti, b.bti = exec.length := by
        intro b hb
        rw [enqueue_bind_buffer] at hb
        split at hb
        · rw [List.mem_singleton.mp hb, hbti]
        · exact absurd hb List.not_mem_nil
      rw [hargs, List.nil_append]
      refine ⟨?_, fun b hb => ?_, fun b _ _ image himage => ?_⟩
      · rw [List.map_append, List.nodup_append]
        refine ⟨?_, ?_, ?_⟩
        · rw [hmap]
          exact List.nodup_range'
        · rw [enqueue_bind_buffer]
          split
          · exact List.nodup_singleton _
          · exact List.nodup_nil
        · intro i hi j hj heq
          obtain ⟨b, hb, rfl⟩ := List.mem_map.mp hi
          obtain ⟨b', hb', rfl⟩ := List.mem_map.mp hj
          have := hle b hb
          have := henq b' hb'
          omega
      · rcases List.mem_append.mp hb with hb | hb
        · have := hle b hb
          omega
        · have := henq b hb
          omega
      · rw [himages] at himage
        exact absurd himage List.not_mem_nil

/-- Two buffers and an image with a second index. -/
def sample : Kernel ℕ :=
  { ocl_version := 120
    args := [⟨GBE_ARG_GLOBAL_PTR, some 10, 0, 2⟩, ⟨GBE_ARG_GLOBAL_PTR, some 11, 8, 3⟩]
    vme := false
    bindForVme := true
    images := [⟨12, 4, true, false⟩]
    exec_info := []
    enqueue := -1
    enqueueMem := 20 }

theorem bindings_unique_sample : ∃ bindings, bind sample = some bindings ∧
    Unique sample bindings := by
  refine ⟨_, rfl, (bindings_unique_iff (by decide) rfl).mpr ⟨⟨by decide, by decide⟩, .inl ?_⟩⟩
  exact ⟨by decide, by decide⟩

/-- With a pointer in `exec_info`, the index of the image is bound twice. -/
theorem not_unique_exec : ∃ bindings, bind { sample with exec_info := [some 13] } = some bindings ∧
    ¬ Unique { sample with exec_info := [some 13] } bindings := by
  refine ⟨_, rfl, fun h => ?_⟩
  have hnodup := h.nodup
  revert hnodup
  decide

end BindingTable

end Runtime
