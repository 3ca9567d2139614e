/-
The table of the mapped pointers of a memory object (`get_mapped_address`,
`cl_mem_record_map_mem` and `cl_mem_record_map_mem_for_kernel` of `cl_mem.c`,
`cl_enqueue_unmap_mem_object` of `cl_enqueue.c` and `clEnqueueUnmapMemObjectForKernel` of
`cl_api_mem.c`).

A slot is free when its pointer is null.  The table starts with sixteen slots, doubles when it is
full and is halved and compacted when fewer than half of its slots are in use.

Three cases break it.  The size of the first table is set before its allocation is known to
succeed, and stays when it fails.  The unmapping of an image that is copied by a kernel does not
refuse a null pointer: it finds a free slot and counts a mapping less.  And the unmapping of a
sub-buffer of host memory asserts that the range ends before the size of the sub-buffer, counted
from the start of its parent.

The memory copied between the mapping and the object is left out, and so is the unmapping of the
temporary buffer of a kernel, whose answer is a parameter.

* `record_spec`, `unmap_spec`, `unmapForKernel_spec` — what each operation does to the mappings;
* **`tableOk_safe`** — the table is right in every run that avoids the three cases.
-/
import Beignet.Lib.Slots
import Beignet.Lib.Transition

namespace Runtime.MappedTable

open Slots

abbrev CL_SUCCESS : ℤ := 0
abbrev CL_OUT_OF_HOST_MEMORY : ℤ := -6
abbrev CL_INVALID_VALUE : ℤ := -30
abbrev CL_INVALID_MEM_OBJECT : ℤ := -38

/-- An origin or a region. -/
structure Vec3 where
  x : ℕ
  y : ℕ
  z : ℕ

/-- `cl_mapped_ptr`; a null pointer is `0`. -/
structure Mapped where
  ptr : ℕ
  v_ptr : ℕ
  size : ℕ
  origin : Vec3
  region : Vec3
  tmp_ker_buf : ℕ
  ker_write_map : Bool

/-- A slot after `memset`. -/
def Mapped.zero : Mapped := ⟨0, 0, 0, ⟨0, 0, 0⟩, ⟨0, 0, 0⟩, 0, false⟩

/-- The slot is in use. -/
def Mapped.used (m : Mapped) : Bool := m.ptr ≠ 0

/-- The part of a memory object that concerns its mappings. -/
structure Mem where
  isImage : Bool
  isSubbuffer : Bool
  sub_offset : ℕ
  size : ℕ
  /-- `CL_MEM_USE_HOST_PTR` -/
  useHostPtr : Bool
  host_ptr : ℕ
  /-- the table, `none` for a null pointer -/
  mapped_ptr : Option (List Mapped)
  mapped_ptr_sz : ℕ
  map_ref : ℤ

/-- What the unmapping asserts of a mapping before it syncs the data. -/
def Mem.inRange (mem : Mem) (m : Mapped) : Bool :=
  if mem.useHostPtr then
    mem.isImage || decide (mem.host_ptr ≤ m.ptr ∧ m.ptr + m.size ≤ mem.host_ptr + mem.size)
  else m.v_ptr = m.ptr

/-- The first slot with the pointer. -/
def slotOf (table : List Mapped) (ptr : ℕ) : Option ℕ := table.findIdx? fun m => m.ptr = ptr

/-! ### Mapping -/

/-- The slot to use next, `none` for the answer -1.  A null table that is not empty is read all the
same, which is a fault, `none` outside. -/
def get_mapped_address (mem : Mem) (malloc : Bool) : Option (Mem × Option ℕ) :=
  if mem.mapped_ptr_sz = 0 then
    let mem := { mem with mapped_ptr_sz := 16 }
    if malloc then some ({ mem with mapped_ptr := some (List.replicate 16 .zero) }, some 0)
    else some ({ mem with mapped_ptr := none }, none)
  else mem.mapped_ptr.map fun table =>
    match slotOf table 0 with
    | some slot => (mem, some slot)
    | none =>
      if malloc then
        ({ mem with
            mapped_ptr := some (table ++ List.replicate mem.mapped_ptr_sz .zero)
            mapped_ptr_sz := mem.mapped_ptr_sz * 2 }, some mem.mapped_ptr_sz)
      else (mem, none)

/-- Fill in the slot and count the mapping; `assert(mem->host_ptr)`. -/
def record (mem : Mem) (malloc : Bool) (fill : Mapped → Mapped) : Option (ℤ × Mem) :=
  if mem.useHostPtr ∧ mem.host_ptr = 0 then none
  else (get_mapped_address mem malloc).map fun
    | (mem, none) => (CL_OUT_OF_HOST_MEMORY, mem)
    | (mem, some slot) =>
      (CL_SUCCESS, { mem with
        mapped_ptr := mem.mapped_ptr.map fun table => table.modify slot fill
        map_ref := mem.map_ref + 1 })

/-- The arguments of a mapping; images come with an origin and a region. -/
structure MapArgs where
  ptr : ℕ
  offset : ℕ
  size : ℕ
  box : Option (Vec3 × Vec3)

/-- The entry of a mapping with its pointers. -/
def fillSlot (args : MapArgs) (mem_ptr v_ptr : ℕ) (m : Mapped) : Mapped :=
  { m with
    ptr := mem_ptr
    v_ptr := v_ptr
    size := args.size
    origin := (args.box.map Prod.fst).getD m.origin
    region := (args.box.map Prod.snd).getD m.region }

/-- The pointer that `cl_mem_record_map_mem_for_kernel` gives the caller. -/
def kernelPtr (mem : Mem) (args : MapArgs) : ℕ :=
  if mem.useHostPtr then args.ptr + args.offset else args.ptr

def cl_mem_record_map_mem_for_kernel (mem : Mem) (args : MapArgs) (tmp_ker_buf : ℕ)
    (write_map malloc : Bool) : Option (ℤ × Mem) :=
  record mem malloc fun m =>
    { fillSlot args (kernelPtr mem args) args.ptr m with
      ker_write_map := write_map
      tmp_ker_buf := tmp_ker_buf }

/-- The offset of a sub-buffer. -/
def subOffset (mem : Mem) : ℕ := if mem.isSubbuffer then mem.sub_offset else 0

/-- The pointer that `cl_mem_record_map_mem` gives the caller. -/
def memPtr (mem : Mem) (args : MapArgs) : ℕ :=
  (if mem.useHostPtr then mem.host_ptr else args.ptr) + args.offset + subOffset mem

def cl_mem_record_map_mem (mem : Mem) (args : MapArgs) (malloc : Bool) : Option (ℤ × Mem) :=
  record mem malloc (fillSlot args (memPtr mem args) (args.ptr + args.offset + subOffset mem))

/-! ### Unmapping -/

/-- Halve and compact the table; `none` when the assertion on its room fails. -/
def shrink (mem : Mem) (table : List Mapped) (malloc : Bool) : Option Mem :=
  if mem.map_ref < mem.mapped_ptr_sz / 2 then
    if malloc then
      let used := entries Mapped.used table
      -- `assert(j < memobj->mapped_ptr_sz / 2)` behind each entry
      if used = [] ∨ used.length < mem.mapped_ptr_sz / 2 then
        some { mem with
          mapped_ptr :=
            some (used ++ List.replicate (mem.mapped_ptr_sz / 2 - used.length) .zero)
          mapped_ptr_sz := mem.mapped_ptr_sz / 2 }
      else none
    else some mem
  else some mem

/-- Search a pointer.  The assertion on the size fails, or a null table is read: `none`. -/
def search (mem : Mem) (mapped_ptr : ℕ) : Option (List Mapped × Option ℕ) :=
  if mem.map_ref ≤ mem.mapped_ptr_sz then
    match mem.mapped_ptr with
    | none => if mem.mapped_ptr_sz = 0 then some ([], none) else none
    | some table => some (table, slotOf table mapped_ptr)
  else none

def cl_enqueue_unmap_mem_object (mem : Mem) (mapped_ptr : ℕ) (malloc : Bool) :
    Option (ℤ × Mem) :=
  if mapped_ptr = 0 then
    if mem.map_ref ≤ mem.mapped_ptr_sz then some (CL_INVALID_VALUE, mem) else none
  else (search mem mapped_ptr).bind fun
    | (_, none) => some (CL_INVALID_VALUE, mem)
    | (table, some i) =>
      let clear (m : Mapped) : Mapped :=
        { m with ptr := 0, v_ptr := 0, size := 0, origin := ⟨0, 0, 0⟩, region := ⟨0, 0, 0⟩ }
      if (table[i]?).any fun m => !mem.inRange m then none
      else
        let table := table.modify i clear
        (shrink { mem with mapped_ptr := some table, map_ref := mem.map_ref - 1 } table malloc).map
          fun mem => (CL_SUCCESS, mem)

/-- `rest` is the answer of what follows when there is a temporary buffer. -/
def clEnqueueUnmapMemObjectForKernel (mem : Mem) (mapped_ptr : ℕ) (rest : ℤ) :
    Option (ℤ × Mem) :=
  (search mem mapped_ptr).map fun
    | (_, none) => (CL_INVALID_MEM_OBJECT, mem)
    | (table, some i) =>
      let tmp_ker_buf := (table[i]?.map Mapped.tmp_ker_buf).getD 0
      (if tmp_ker_buf = 0 then CL_INVALID_MEM_OBJECT else rest,
        { mem with mapped_ptr := some (table.modify i fun _ => .zero), map_ref := mem.map_ref - 1 })

/-! ### Runs -/

/-- `malloc` tells whether the allocation that the operation may make succeeds. -/
inductive Op where
  | record (args : MapArgs) (malloc : Bool)
  | recordForKernel (args : MapArgs) (tmp_ker_buf : ℕ) (write_map malloc : Bool)
  | unmap (mapped_ptr : ℕ) (malloc : Bool)
  | unmapForKernel (mapped_ptr : ℕ) (rest : ℤ)

/-- The answer and the object afterwards, `none` for a fault. -/
def step (mem : Mem) : Op → Option (ℤ × Mem)
  | .record args malloc => cl_mem_record_map_mem mem args malloc
  | .recordForKernel args tmp_ker_buf write_map malloc =>
    cl_mem_record_map_mem_for_kernel mem args tmp_ker_buf write_map malloc
  | .unmap mapped_ptr malloc => cl_enqueue_unmap_mem_object mem mapped_ptr malloc
  | .unmapForKernel mapped_ptr rest => clEnqueueUnmapMemObjectForKernel mem mapped_ptr rest

/-- The memory object after an operation. -/
def next (mem : Mem) (op : Op) : Option Mem := (step mem op).map Prod.snd

/-- An object without mappings; host memory has a pointer. -/
def Fresh (mem : Mem) : Prop :=
  mem.mapped_ptr = none ∧ mem.mapped_ptr_sz = 0 ∧ mem.map_ref = 0 ∧
    (mem.useHostPtr = true → mem.host_ptr ≠ 0)

/-- The table; a null pointer has no slots. -/
def Mem.table (mem : Mem) : List Mapped := mem.mapped_ptr.getD []

/-- The outstanding mappings. -/
def Mem.mappings (mem : Mem) : List Mapped := entries Mapped.used mem.table

/-- The sizes agree, the mappings are counted, and the assertions about them hold. -/
structure Inv (mem : Mem) : Prop where
  size : mem.table.length = mem.mapped_ptr_sz
  ref : mem.map_ref = mem.mappings.length
  host : mem.useHostPtr = true → mem.host_ptr ≠ 0
  inRange : ∀ m ∈ mem.mappings, mem.inRange m = true

/-- The entry that a mapping adds. -/
def Describes (args : MapArgs) (mem_ptr v_ptr : ℕ) (m : Mapped) : Prop :=
  m.ptr = mem_ptr ∧ m.v_ptr = v_ptr ∧ m.size = args.size ∧
    ∀ box, args.box = some box → m.origin = box.1 ∧ m.region = box.2

/-- A mapping is added, or the call fails and the mappings are what they were. -/
def Adds (mem : Mem) (err : ℤ) (mem' : Mem) (new : Mapped → Prop) : Prop :=
  err = CL_SUCCESS ∧ (∃ m, new m ∧ mem'.mappings.Perm (m :: mem.mappings)) ∨
    err ≠ CL_SUCCESS ∧ mem'.mappings = mem.mappings

/-- One mapping of the pointer is removed, or there is none: then the call fails and the object is
what it was. -/
def Removes (mem : Mem) (err : ℤ) (mem' : Mem) (mapped_ptr : ℕ) : Prop :=
  (∃ m, m.ptr = mapped_ptr ∧ mem.mappings.Perm (m :: mem'.mappings)) ∨
    (∀ m ∈ mem.mappings, m.ptr ≠ mapped_ptr) ∧ err ≠ CL_SUCCESS ∧ mem' = mem

/-- What each operation is for. -/
def StepOk (mem : Mem) (err : ℤ) (mem' : Mem) : Op → Prop
  | .record args _ => Adds mem err mem'
      (Describes args (memPtr mem args) (args.ptr + args.offset + subOffset mem))
  | .recordForKernel args tmp_ker_buf write_map _ => Adds mem err mem' fun m =>
      Describes args (kernelPtr mem args) args.ptr m ∧ m.tmp_ker_buf = tmp_ker_buf ∧
        m.ker_write_map = write_map
  | .unmap mapped_ptr _ | .unmapForKernel mapped_ptr _ => Removes mem err mem' mapped_ptr

/-- After a run whose steps meet the condition the table is right, and the next such step neither
faults nor goes wrong. -/
def TableOk (C : Mem → Op → Prop) (mem0 : Mem) (ops : List Op) : Prop :=
  Fresh mem0 → ∀ mem, Transition.exec next mem0 ops = some mem →
    Transition.StepsMeet next C mem0 ops →
      Inv mem ∧ ∀ op, C mem op → ∃ err mem', step mem op = some (err, mem') ∧
        StepOk mem err mem' op

/-- The pointer of a mapping is not null and the first table can be allocated; a mapping of a buffer
in host memory ends before the size of the buffer, also when it is counted from the start of the
parent, and only images are copied by a kernel; a null pointer is not unmapped the way of the
kernels while there is a free slot. -/
def Safe (mem : Mem) : Op → Prop
  | .record args malloc =>
    memPtr mem args ≠ 0 ∧ (mem.mapped_ptr_sz = 0 → malloc = true) ∧
      (mem.useHostPtr = true → mem.isImage = false →
        args.offset + subOffset mem + args.size ≤ mem.size)
  | .recordForKernel args _ _ malloc =>
    kernelPtr mem args ≠ 0 ∧ (mem.mapped_ptr_sz = 0 → malloc = true) ∧ mem.isImage = true
  | .unmap .. => True
  | .unmapForKernel mapped_ptr _ => mapped_ptr ≠ 0 ∨ ∀ m ∈ mem.table, m.ptr ≠ 0

/-! ### Mapping keeps the table right -/

section Steps

variable {mem : Mem}

theorem used_zero : Mapped.used .zero = false := rfl

theorem used_iff {m : Mapped} : m.used = true ↔ m.ptr ≠ 0 := by simp [Mapped.used]

theorem slotOf_some {table : List Mapped} {ptr i : ℕ} (h : slotOf table ptr = some i) :
    ∃ m, table[i]? = some m ∧ m.ptr = ptr := by
  obtain ⟨m, hm, hptr⟩ := findIdx?_some h
  exact ⟨m, hm, of_decide_eq_true hptr⟩

theorem slotOf_none {table : List Mapped} {ptr : ℕ} (h : slotOf table ptr = none) :
    ∀ m ∈ table, m.ptr ≠ ptr :=
  fun m hm => of_decide_eq_false (findIdx?_none h m hm)

theorem Inv.fresh (h : Fresh mem) : Inv mem := by
  obtain ⟨hptr, hsz, href, hhost⟩ := h
  have htable : mem.table = [] := by rw [Mem.table, hptr, Option.getD_none]
  have hempty : mem.mappings = [] := by rw [Mem.mappings, htable]; rfl
  exact ⟨by rw [htable, hsz, List.length_nil], by rw [hempty, href]; rfl, hhost,
    by rw [hempty]; exact nofun⟩

theorem Inv.ref_le (h : Inv mem) : mem.map_ref ≤ mem.mapped_ptr_sz := by
  have hle := List.length_filter_le Mapped.used mem.table
  rw [h.ref, ← h.size]
  exact_mod_cast hle

/-- A table that is not empty is not null. -/
theorem Inv.mapped_ptr_eq (h : Inv mem) (hsz : mem.mapped_ptr_sz ≠ 0) :
    mem.mapped_ptr = some mem.table := by
  rcases hptr : mem.mapped_ptr with _ | table
  · have hsize := h.size
    rw [Mem.table, hptr] at hsize
    exact absurd hsize.symm hsz
  · rw [Mem.table, hptr, Option.getD_some]

/-- The slot to use is free. -/
theorem get_mapped_address_spec (h : Inv mem) {malloc : Bool}
    (hmalloc : mem.mapped_ptr_sz = 0 → malloc = true) :
    ∃ mem' slot, get_mapped_address mem malloc = some (mem', slot) ∧ Inv mem' ∧
      mem'.mappings = mem.mappings ∧ mem'.inRange = mem.inRange ∧
        ∀ i, slot = some i → ∃ m, mem'.table[i]? = some m ∧ m.used = false := by
  by_cases hsz : mem.mapped_ptr_sz = 0
  · -- the first table
    have hnil : mem.table = [] := List.length_eq_zero_iff.mp (h.size.trans hsz)
    have hempty : mem.mappings = [] := by rw [Mem.mappings, hnil]; rfl
    rw [get_mapped_address, if_pos hsz, hmalloc hsz]
    refine ⟨_, _, rfl, ⟨rfl, ?_, h.host, nofun⟩, hempty.symm, rfl, ?_⟩
    · rw [h.ref, hempty]
      rfl
    · rintro i ⟨⟩
      exact ⟨.zero, rfl, rfl⟩
  · rw [get_mapped_address, if_neg hsz, h.mapped_ptr_eq hsz, Option.map_some]
    rcases hfind : slotOf mem.table 0 with _ | slot
    · rcases malloc
      · exact ⟨_, _, rfl, h, rfl, rfl, nofun⟩
      · -- twice as many slots, the new ones free
        have hgrow := entries_grow used_zero mem.table mem.mapped_ptr_sz
        refine ⟨_, _, rfl, ⟨?_, ?_, h.host, ?_⟩, hgrow, rfl, ?_⟩
        · show (mem.table ++ List.replicate mem.mapped_ptr_sz Mapped.zero).length =
            mem.mapped_ptr_sz * 2
          rw [List.length_append, List.length_replicate, h.size]
          omega
        · show mem.map_ref = (entries Mapped.used (mem.table ++ _)).length
          rw [hgrow]
          exact h.ref
        · show ∀ m ∈ entries Mapped.used (mem.table ++ _), mem.inRange m = true
          rw [hgrow]
          exact h.inRange
        · rintro i ⟨⟩
          refine ⟨.zero, ?_, rfl⟩
          show (mem.table ++ List.replicate mem.mapped_ptr_sz Mapped.zero)[mem.mapped_ptr_sz]? = _
          rw [List.getElem?_append_right (Nat.le_of_eq h.size), h.size, Nat.sub_self,
            List.getElem?_replicate, if_pos (Nat.pos_of_ne_zero hsz)]
    · refine ⟨_, _, rfl, h, rfl, rfl, ?_⟩
      rintro i ⟨⟩
      obtain ⟨m, hm, hfree⟩ := slotOf_some hfind
      exact ⟨m, hm, by simp [Mapped.used, hfree]⟩

theorem record_spec (h : Inv mem) {malloc : Bool} (hmalloc : mem.mapped_ptr_sz = 0 → malloc = true)
    (fill : Mapped → Mapped) (hfill : ∀ m, (fill m).used = true ∧ mem.inRange (fill m) = true) :
    ∃ err mem', record mem malloc fill = some (err, mem') ∧ Inv mem' ∧
      Adds mem err mem' fun m => ∃ m0, m = fill m0 := by
  obtain ⟨mem', slot, hget, hinv, hsame, hrange, hfree⟩ := get_mapped_address_spec h hmalloc
  rw [record, if_neg fun hnull => h.host hnull.1 hnull.2, hget, Option.map_some]
  rcases slot with _ | i
  · exact ⟨_, _, rfl, hinv, .inr ⟨by decide, hsame⟩⟩
  · obtain ⟨m, hm, hunused⟩ := hfree i rfl
    have htable : (mem'.mapped_ptr.map fun table => table.modify i fill).getD [] =
        mem'.table.modify i fill := by
      rcases hptr : mem'.mapped_ptr with _ | table
      · simp [Mem.table, hptr]
      · simp [Mem.table, hptr]
    have hperm := fill_perm hm hunused (hfill m).1
    refine ⟨_, _, rfl, ⟨?_, ?_, hinv.host, ?_⟩, .inl ⟨rfl, fill m, ⟨m, rfl⟩, ?_⟩⟩
    · show ((mem'.mapped_ptr.map fun table => table.modify i fill).getD []).length = _
      rw [htable, List.length_modify]
      exact hinv.size
    · show mem'.map_ref + 1 = (entries Mapped.used ((mem'.mapped_ptr.map fun table =>
        table.modify i fill).getD [])).length
      rw [htable, hperm.length_eq, hinv.ref]
      rfl
    · show ∀ m ∈ entries Mapped.used ((mem'.mapped_ptr.map fun table =>
        table.modify i fill).getD []), mem'.inRange m = true
      intro x hx
      rw [htable, hperm.mem_iff, List.mem_cons] at hx
      rcases hx with rfl | hx
      · rw [hrange]
        exact (hfill m).2
      · exact hinv.inRange x hx
    · show (entries Mapped.used ((mem'.mapped_ptr.map fun table =>
        table.modify i fill).getD [])).Perm _
      rw [htable, ← hsame]
      exact hperm

/-! ### Unmapping keeps the table right -/

theorem search_eq (h : Inv mem) (mapped_ptr : ℕ) :
    search mem mapped_ptr = some (mem.table, slotOf mem.table mapped_ptr) := by
  rw [search, if_pos h.ref_le]
  rcases hptr : mem.mapped_ptr with _ | table
  · have htable : mem.table = [] := by rw [Mem.table, hptr, Option.getD_none]
    have hsz : mem.mapped_ptr_sz = 0 := by rw [← h.size, htable, List.length_nil]
    simp [hsz, htable, slotOf]
  · have htable : mem.table = table := by rw [Mem.table, hptr, Option.getD_some]
    rw [htable]

/-- A slot is cleared. -/
theorem clear_spec (h : Inv mem) {i : ℕ} {m : Mapped} (hm : mem.table[i]? = some m)
    (hused : m.used = true) (clear : Mapped → Mapped) (hclear : (clear m).used = false) :
    Inv { mem with mapped_ptr := some (mem.table.modify i clear), map_ref := mem.map_ref - 1 } ∧
      mem.mappings.Perm (m :: entries Mapped.used (mem.table.modify i clear)) := by
  have hperm := clear_perm hm hused hclear
  refine ⟨⟨?_, ?_, h.host, fun x hx => ?_⟩, hperm⟩
  · exact (List.length_modify ..).trans h.size
  · have hlength := hperm.length_eq
    show mem.map_ref - 1 = (entries Mapped.used (mem.table.modify i clear)).length
    rw [h.ref, Mem.mappings, hlength, List.length_cons]
    omega
  · exact h.inRange x (hperm.mem_iff.mpr (List.mem_cons_of_mem _ hx))

/-- The table keeps its mappings when it is halved, and there is room for them. -/
theorem shrink_spec (h : Inv mem) (malloc : Bool) :
    ∃ mem', shrink mem mem.table malloc = some mem' ∧ Inv mem' ∧
      mem'.mappings = mem.mappings := by
  by_cases hhalf : mem.map_ref < mem.mapped_ptr_sz / 2
  · rcases malloc
    · exact ⟨mem, by rw [shrink, if_pos hhalf, if_neg (by decide)], h, rfl⟩
    · have hroom : (entries Mapped.used mem.table).length < mem.mapped_ptr_sz / 2 := by
        have href : mem.map_ref = (entries Mapped.used mem.table).length := h.ref
        omega
      have hcompact := entries_compact used_zero mem.table
        (mem.mapped_ptr_sz / 2 - (entries Mapped.used mem.table).length)
      have hshrink : shrink mem mem.table true = some { mem with
          mapped_ptr := some (entries Mapped.used mem.table ++ List.replicate
            (mem.mapped_ptr_sz / 2 - (entries Mapped.used mem.table).length) .zero)
          mapped_ptr_sz := mem.mapped_ptr_sz / 2 } := by
        rw [shrink, if_pos hhalf, if_pos rfl]
        exact if_pos (.inr hroom)
      refine ⟨_, hshrink, ⟨?_, ?_, h.host, ?_⟩, hcompact⟩
      · show (entries Mapped.used mem.table ++ List.replicate _ Mapped.zero).length =
          mem.mapped_ptr_sz / 2
        rw [List.length_append, List.length_replicate]
        omega
      · show mem.map_ref = (entries Mapped.used (entries Mapped.used mem.table ++ _)).length
        rw [hcompact]
        exact h.ref
      · show ∀ m ∈ entries Mapped.used (entries Mapped.used mem.table ++ _), mem.inRange m = true
        rw [hcompact]
        exact h.inRange
  · exact ⟨mem, by rw [shrink, if_neg hhalf], h, rfl⟩

theorem unmap_spec (h : Inv mem) (mapped_ptr : ℕ) (malloc : Bool) :
    ∃ err mem', cl_enqueue_unmap_mem_object mem mapped_ptr malloc = some (err, mem') ∧
      Inv mem' ∧ Removes mem err mem' mapped_ptr := by
  rw [cl_enqueue_unmap_mem_object]
  by_cases hnull : mapped_ptr = 0
  · subst hnull
    rw [if_pos rfl, if_pos h.ref_le]
    refine ⟨_, _, rfl, h, .inr ⟨fun m hm => ?_, by decide, rfl⟩⟩
    exact used_iff.mp (mem_entries.mp hm).2
  · rw [if_neg hnull, search_eq h, Option.bind_some]
    rcases hslot : slotOf mem.table mapped_ptr with _ | i
    · refine ⟨_, _, rfl, h, .inr ⟨fun m hm => ?_, by decide, rfl⟩⟩
      exact slotOf_none hslot m (mem_entries.mp hm).1
    · obtain ⟨m, hm, rfl⟩ := slotOf_some hslot
      let clear (m : Mapped) : Mapped :=
        { m with ptr := 0, v_ptr := 0, size := 0, origin := ⟨0, 0, 0⟩, region := ⟨0, 0, 0⟩ }
      have hclear : (clear m).used = false := rfl
      obtain ⟨hinv, hperm⟩ := clear_spec h hm (used_iff.mpr hnull) clear hclear
      obtain ⟨mem', hshrink, hinv', hsame⟩ := shrink_spec hinv malloc
      have hrange : ¬ (mem.table[i]?).any fun m => !mem.inRange m := by
        have hmem : m ∈ mem.mappings :=
          mem_entries.mpr ⟨List.mem_of_getElem? hm, used_iff.mpr hnull⟩
        simp [hm, h.inRange m hmem]
      refine ⟨CL_SUCCESS, mem', ?_, hinv', .inl ⟨m, rfl, ?_⟩⟩
      · show (if _ then none else _) = _
        rw [if_neg hrange]
        exact Option.map_eq_some_iff.mpr ⟨mem', hshrink, rfl⟩
      rw [hsame]
      exact hperm

theorem unmapForKernel_spec (h : Inv mem) {mapped_ptr : ℕ} (rest : ℤ)
    (hsafe : mapped_ptr ≠ 0 ∨ ∀ m ∈ mem.table, m.ptr ≠ 0) :
    ∃ err mem', clEnqueueUnmapMemObjectForKernel mem mapped_ptr rest = some (err, mem') ∧
      Inv mem' ∧ Removes mem err mem' mapped_ptr := by
  rw [clEnqueueUnmapMemObjectForKernel, search_eq h, Option.map_some]
  rcases hslot : slotOf mem.table mapped_ptr with _ | i
  · refine ⟨_, _, rfl, h, .inr ⟨fun m hm => ?_, by decide, rfl⟩⟩
    exact slotOf_none hslot m (mem_entries.mp hm).1
  · obtain ⟨m, hm, rfl⟩ := slotOf_some hslot
    have hnull : m.ptr ≠ 0 := hsafe.elim id fun hall => hall m (List.mem_of_getElem? hm)
    obtain ⟨hinv, hperm⟩ := clear_spec h hm (used_iff.mpr hnull) (fun _ => .zero) used_zero
    exact ⟨_, _, rfl, hinv, .inl ⟨m, rfl, hperm⟩⟩

theorem Adds.mono {err : ℤ} {mem' : Mem} {new new' : Mapped → Prop} (h : Adds mem err mem' new)
    (himp : ∀ m, new m → new' m) : Adds mem err mem' new' := by
  rcases h with ⟨herr, m, hm, hperm⟩ | ⟨herr, hsame⟩
  · exact .inl ⟨herr, m, himp m hm, hperm⟩
  · exact .inr ⟨herr, hsame⟩

theorem describes_fillSlot (args : MapArgs) (mem_ptr v_ptr : ℕ) (m : Mapped) :
    Describes args mem_ptr v_ptr (fillSlot args mem_ptr v_ptr m) := by
  refine ⟨rfl, rfl, rfl, fun box hbox => ?_⟩
  simp [fillSlot, hbox]

/-- A mapping of a buffer in host memory that ends early enough passes the assertion. -/
theorem inRange_fillSlot (args : MapArgs) (m : Mapped)
    (h : mem.useHostPtr = true → mem.isImage = false →
      args.offset + subOffset mem + args.size ≤ mem.size) :
    mem.inRange (fillSlot args (memPtr mem args) (args.ptr + args.offset + subOffset mem) m) =
      true := by
  by_cases hhost : mem.useHostPtr = true
  · rcases himage : mem.isImage with _ | _
    · have hle := h hhost himage
      simp only [Mem.inRange, hhost, himage, memPtr, fillSlot, if_true, Bool.false_or,
        decide_eq_true_eq]
      omega
    · simp [Mem.inRange, hhost, himage]
  · simp [Mem.inRange, hhost, memPtr, fillSlot]

/-- A step that meets the condition. -/
theorem step_spec (h : Inv mem) {op : Op} (hsafe : Safe mem op) :
    ∃ err mem', step mem op = some (err, mem') ∧ Inv mem' ∧ StepOk mem err mem' op := by
  cases op with
  | record args malloc =>
    obtain ⟨err, mem', hstep, hinv, hadds⟩ := record_spec h hsafe.2.1
      (fillSlot args (memPtr mem args) (args.ptr + args.offset + subOffset mem))
      fun m => ⟨used_iff.mpr hsafe.1, inRange_fillSlot args m hsafe.2.2⟩
    refine ⟨err, mem', hstep, hinv, hadds.mono ?_⟩
    rintro m ⟨m0, rfl⟩
    exact describes_fillSlot ..
  | recordForKernel args tmp_ker_buf write_map malloc =>
    obtain ⟨err, mem', hstep, hinv, hadds⟩ := record_spec h hsafe.2.1
      (fun m => { fillSlot args (kernelPtr mem args) args.ptr m with
        ker_write_map := write_map
        tmp_ker_buf := tmp_ker_buf })
      fun m => ⟨used_iff.mpr hsafe.1, by
        simp only [Mem.inRange, fillSlot, kernelPtr, hsafe.2.2, Bool.true_or]
        split <;> simp_all⟩
    refine ⟨err, mem', hstep, hinv, hadds.mono ?_⟩
    rintro m ⟨m0, rfl⟩
    exact ⟨describes_fillSlot args (kernelPtr mem args) args.ptr m0, rfl, rfl⟩
  | unmap mapped_ptr malloc => exact unmap_spec h mapped_ptr malloc
  | unmapForKernel mapped_ptr rest => exact unmapForKernel_spec h rest hsafe

end Steps

/-! ### Every run -/

/-- **The mapped pointers.**  In every run that allocates its first table, maps no null pointer and
unmaps none of an image copied by a kernel, the mappings are counted, none is lost and each
unmapping removes one. -/
theorem tableOk_safe (mem0 : Mem) (ops : List Op) : TableOk Safe mem0 ops := by
  intro hfresh mem hexec hsteps
  have hinv : Inv mem := by
    refine Transition.exec_invariant_of_steps ?_ hexec hsteps (Inv.fresh hfresh)
    intro s op s' hnext hsafe h
    obtain ⟨err, mem', hstep, hinv', -⟩ := step_spec h hsafe
    rw [next, hstep, Option.map_some] at hnext
    exact Option.some_inj.mp hnext ▸ hinv'
  refine ⟨hinv, fun op hsafe => ?_⟩
  obtain ⟨err, mem', hstep, -, hok⟩ := step_spec hinv hsafe
  exact ⟨err, mem', hstep, hok⟩

/-- An image without mappings. -/
def plainMem : Mem := ⟨true, false, 0, 4096, false, 0, none, 0, 0⟩

/-- The second half of a buffer of 128 bytes in host memory. -/
def secondHalf : Mem := ⟨false, true, 64, 64, true, 4096, none, 0, 0⟩

/-- A second mapping after the first table could not be allocated reads a null table; unmapping a
sub-buffer that was mapped whole fails the assertion; unmapping a null pointer leaves a mapping that
is not counted. -/
theorem nullUnmap_wrong :
    Transition.exec next plainMem
        [.record ⟨4096, 0, 64, none⟩ false, .record ⟨4096, 0, 64, none⟩ true] = none ∧
      Transition.exec next secondHalf [.record ⟨8192, 0, 64, none⟩ true, .unmap 4160 true] = none ∧
      ¬ TableOk (fun _ _ => True) plainMem
        [.recordForKernel ⟨4096, 0, 0, none⟩ 1 true true, .unmapForKernel 0 0] := by
  refine ⟨rfl, rfl, fun h => ?_⟩
  have hsteps : Transition.StepsMeet next (fun _ _ => True) plainMem
      [.recordForKernel ⟨4096, 0, 0, none⟩ 1 true true, .unmapForKernel 0 0] := by
    simp [Transition.StepsMeet]
  have hinv := (h ⟨rfl, rfl, rfl, nofun⟩ _ rfl hsteps).1
  exact absurd hinv.ref (by decide)

end Runtime.MappedTable
