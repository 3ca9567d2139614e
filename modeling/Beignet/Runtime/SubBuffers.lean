/-
Sub-buffers (`cl_mem_new_sub_buffer`) and the replacement of a buffer's storage
(`cl_mem_replace_buffer`), both in `cl_mem.c`.

The sub-buffers of a buffer are a list that ends with NULL and grows at its head; the replacement
walks it as if it were a ring, and only from a sub-buffer.  A pointer that is NULL or not followed
to the end gives no result.

* `Family.create` — what the creation of a sub-buffer keeps;
* `walk_eq_none` — a walk along the list never returns;
* **`replace_reaches_iff`** — when the whole family gets the new storage.
-/
import Mathlib

namespace Runtime

namespace SubBuffers

/-! ### Objects -/

inductive MemType where
  | CL_MEM_BUFFER_TYPE
  | CL_MEM_SUBBUFFER_TYPE
  deriving DecidableEq

open MemType

abbrev Flags := BitVec 64

abbrev CL_MEM_READ_WRITE : Flags := 1
abbrev CL_MEM_WRITE_ONLY : Flags := 2
abbrev CL_MEM_READ_ONLY : Flags := 4
abbrev CL_MEM_USE_HOST_PTR : Flags := 8
abbrev CL_MEM_ALLOC_HOST_PTR : Flags := 16
abbrev CL_MEM_COPY_HOST_PTR : Flags := 32
abbrev CL_MEM_HOST_WRITE_ONLY : Flags := 128
abbrev CL_MEM_HOST_READ_ONLY : Flags := 256
abbrev CL_MEM_HOST_NO_ACCESS : Flags := 512

/-- A bit of the flags. -/
def has (flags mask : Flags) : Prop := flags &&& mask ≠ 0

instance (flags mask : Flags) : Decidable (has flags mask) := inferInstanceAs (Decidable (_ ≠ _))

/-- `struct _cl_mem_buffer` with its base; pointers are addresses. -/
structure MemBuffer where
  type : MemType
  flags : Flags
  ref_n : ℤ
  bo : ℕ
  size : BitVec 64
  subs : Option ℕ
  sub_offset : BitVec 64
  sub_prev : Option ℕ
  sub_next : Option ℕ
  parent : Option ℕ

/-- The objects, the first address that `CALLOC` has not given away, and the reference counts of the
storage objects. -/
structure State where
  heap : ℕ → Option MemBuffer
  next : ℕ
  refs : ℕ → ℤ

def State.modify (s : State) (a : ℕ) (f : MemBuffer → MemBuffer) : State :=
  { s with heap := Function.update s.heap a ((s.heap a).map f) }

namespace State

def addRef (s : State) (a : ℕ) : State := s.modify a fun m => { m with ref_n := m.ref_n + 1 }

def setPrev (s : State) (a : Option ℕ) (sub : ℕ) : State :=
  match a with
  | some a => s.modify a fun m => { m with sub_prev := some sub }
  | none => s

def setSubs (s : State) (a sub : ℕ) : State := s.modify a fun m => { m with subs := some sub }

end State

inductive Error where
  | CL_INVALID_MEM_OBJECT
  | CL_INVALID_VALUE
  | CL_INVALID_BUFFER_SIZE
  | CL_MISALIGNED_SUB_BUFFER_OFFSET
  | CL_OUT_OF_HOST_MEMORY

/-- `cl_buffer_region` -/
structure Region where
  origin : BitVec 64
  size : BitVec 64

/-- The arguments of `cl_mem_new_sub_buffer` after the buffer, with the outcome of `CALLOC`. -/
structure Request where
  flags : Flags
  /-- `create_type == CL_BUFFER_CREATE_TYPE_REGION` -/
  region : Bool
  create_info : Option Region
  alloc : Bool

/-! ### The functions -/

def badFlags (buffer flags : Flags) : Prop :=
  flags ≠ 0 ∧
    (has buffer CL_MEM_WRITE_ONLY ∧ has flags (CL_MEM_READ_WRITE ||| CL_MEM_READ_ONLY) ∨
      has buffer CL_MEM_READ_ONLY ∧ has flags (CL_MEM_READ_WRITE ||| CL_MEM_WRITE_ONLY) ∨
      has flags (CL_MEM_USE_HOST_PTR ||| CL_MEM_ALLOC_HOST_PTR ||| CL_MEM_COPY_HOST_PTR) ∨
      has flags CL_MEM_HOST_READ_ONLY ∧ has flags CL_MEM_HOST_NO_ACCESS ∨
      has flags CL_MEM_HOST_READ_ONLY ∧ has flags CL_MEM_HOST_WRITE_ONLY ∨
      has flags CL_MEM_HOST_WRITE_ONLY ∧ has flags CL_MEM_HOST_NO_ACCESS)

instance (buffer flags : Flags) : Decidable (badFlags buffer flags) :=
  inferInstanceAs (Decidable (_ ∧ _))

/-- What the sub-buffer takes from its buffer. -/
def inherited (buffer flags : Flags) : Flags :=
  let access := CL_MEM_WRITE_ONLY ||| CL_MEM_READ_ONLY ||| CL_MEM_READ_WRITE
  let host := CL_MEM_HOST_WRITE_ONLY ||| CL_MEM_HOST_READ_ONLY ||| CL_MEM_HOST_NO_ACCESS
  let flags := if flags &&& access = 0 then flags ||| (buffer &&& access) else flags
  let flags := flags |||
    (buffer &&& (CL_MEM_USE_HOST_PTR ||| CL_MEM_ALLOC_HOST_PTR ||| CL_MEM_COPY_HOST_PTR))
  if flags &&& host = 0 then flags ||| (buffer &&& host) else flags

/-- The checks of `cl_mem_new_sub_buffer`; `mem_base_addr_align` is in bits. -/
def check (mem_base_addr_align : BitVec 32) (buffer : MemBuffer) (r : Request) :
    Except Error Region :=
  if buffer.type ≠ CL_MEM_BUFFER_TYPE then throw .CL_INVALID_MEM_OBJECT
  else if badFlags buffer.flags r.flags then throw .CL_INVALID_VALUE
  else if ¬ r.region then throw .CL_INVALID_VALUE
  else
    match r.create_info with
    | none => throw .CL_INVALID_VALUE
    | some info =>
      if info.size = 0 then throw .CL_INVALID_BUFFER_SIZE
      else if info.origin > buffer.size ∨ info.origin + info.size > buffer.size then
        throw .CL_INVALID_VALUE
      else if info.origin &&& (mem_base_addr_align / 8 - 1).setWidth 64 ≠ 0 then
        throw .CL_MISALIGNED_SUB_BUFFER_OFFSET
      else if ¬ r.alloc then throw .CL_OUT_OF_HOST_MEMORY
      else return info

/-- The new object becomes the head of the buffer's list. -/
def link (s : State) (buffer : ℕ) (m : MemBuffer) (r : Request) (info : Region) : State :=
  let sub_buf := s.next
  let sub : MemBuffer :=
    { type := CL_MEM_SUBBUFFER_TYPE
      flags := inherited m.flags r.flags
      ref_n := 1
      bo := m.bo
      size := info.size
      subs := none
      sub_offset := info.origin
      sub_prev := none
      sub_next := m.subs
      parent := some buffer }
  let s := { s with heap := Function.update s.heap sub_buf (some sub), next := s.next + 1 }
  ((s.addRef buffer).setPrev m.subs sub_buf).setSubs buffer sub_buf

/-- A failure leaves the state; a pointer to no object gives no result. -/
def cl_mem_new_sub_buffer (mem_base_addr_align : BitVec 32) (s : State) (buffer : ℕ)
    (r : Request) : Option (State × Except Error ℕ) := do
  let m ← s.heap buffer
  match check mem_base_addr_align m r with
  | .error e => some (s, .error e)
  | .ok info => some (link s buffer m r info, .ok s.next)

/-- `cl_buffer_unreference`, the new `bo` and `cl_buffer_reference`. -/
def switched (s : State) (a : ℕ) (m : MemBuffer) (new_bo : ℕ) : State :=
  let refs := Function.update s.refs m.bo (s.refs m.bo - 1)
  { s with
    heap := Function.update s.heap a (some { m with bo := new_bo })
    refs := Function.update refs new_bo (refs new_bo + 1) }

def switch (s : State) (a new_bo : ℕ) : Option State := do
  let m ← s.heap a
  some (switched s a m new_bo)

/-- The loop, for so many rounds. -/
def walk (buffer new_bo : ℕ) : ℕ → State → Option ℕ → Option State
  | 0, _, _ => none
  | fuel + 1, s, it =>
    if it = some buffer then some s
    else do
      let a ← it
      let s ← switch s a new_bo
      let m ← s.heap a
      walk buffer new_bo fuel s m.sub_next

def cl_mem_replace_buffer (fuel : ℕ) (s : State) (buffer new_bo : ℕ) : Option State := do
  let s ← switch s buffer new_bo
  let m ← s.heap buffer
  if m.type ≠ CL_MEM_SUBBUFFER_TYPE then some s
  else walk buffer new_bo fuel s m.sub_next

/-! ### Families -/

/-- Sub-buffers are created one after the other; the new ones come first. -/
def creations (mem_base_addr_align : BitVec 32) (buffer : ℕ) :
    State → List Request → Option (State × List ℕ)
  | s, [] => some (s, [])
  | s, r :: requests => do
    let (s, mem) ← cl_mem_new_sub_buffer mem_base_addr_align s buffer r
    let (s, subs) ← creations mem_base_addr_align buffer s requests
    match mem with
    | .ok sub => some (s, subs ++ [sub])
    | .error _ => some (s, subs)

/-- A buffer without sub-buffers. -/
def IsBuffer (s : State) (buffer bo : ℕ) : Prop :=
  (∃ m, s.heap buffer = some m ∧ m.type = CL_MEM_BUFFER_TYPE ∧ m.bo = bo ∧ m.subs = none) ∧
    ∀ a, s.next ≤ a → s.heap a = none

/-- The replacement returns, the family refers to the new storage, and the counts agree. -/
def Reaches (s : State) (family : List ℕ) (bo buffer new_bo : ℕ) : Prop :=
  ∃ fuel s', cl_mem_replace_buffer fuel s buffer new_bo = some s' ∧
    (∀ a ∈ family, ∃ m, s'.heap a = some m ∧ m.bo = new_bo) ∧
    s'.refs new_bo = s.refs new_bo + family.length ∧ s'.refs bo = s.refs bo - family.length

/-! ### The list of sub-buffers -/

/-- Each object refers to the next one, the last one to NULL. -/
def Links (s : State) : List ℕ → Prop
  | [] => True
  | a :: subs => (s.heap a).map (·.sub_next) = some subs.head? ∧ Links s subs

structure Family (s : State) (buffer bo : ℕ) (subs : List ℕ) : Prop where
  head : ∃ m, s.heap buffer = some m ∧ m.type = CL_MEM_BUFFER_TYPE ∧ m.bo = bo ∧
    m.subs = subs.head?
  sub : ∀ a ∈ subs, ∃ m, s.heap a = some m ∧ m.type = CL_MEM_SUBBUFFER_TYPE ∧ m.bo = bo
  links : Links s subs
  nodup : (buffer :: subs).Nodup
  fresh : ∀ a, s.next ≤ a → s.heap a = none

/-- The fields that only the creation of an object and a new storage set. -/
def core (m : MemBuffer) : MemType × ℕ × Option ℕ := (m.type, m.bo, m.sub_next)

theorem core_modify (s : State) (a : ℕ) {f : MemBuffer → MemBuffer} (hf : ∀ m, core (f m) = core m)
    (x : ℕ) : ((s.modify a f).heap x).map core = (s.heap x).map core := by
  rw [State.modify]
  by_cases hx : x = a
  · subst hx
    simp only [Function.update_self, Option.map_map]
    exact congrArg (fun g => (s.heap x).map g) (funext hf)
  · simp only [Function.update_of_ne hx]

theorem core_addRef (s : State) (a x : ℕ) :
    ((s.addRef a).heap x).map core = (s.heap x).map core := by
  apply core_modify
  exact fun _ => rfl

theorem core_setPrev (s : State) (a : Option ℕ) (sub x : ℕ) :
    ((s.setPrev a sub).heap x).map core = (s.heap x).map core := by
  cases a with
  | none => rfl
  | some a =>
    apply core_modify
    exact fun _ => rfl

theorem core_setSubs (s : State) (a sub x : ℕ) :
    ((s.setSubs a sub).heap x).map core = (s.heap x).map core := by
  apply core_modify
  exact fun _ => rfl

/-- The other objects keep their core, and the new one has that of a sub-buffer. -/
theorem core_link (s : State) (buffer : ℕ) (m : MemBuffer) (r : Request) (info : Region) (x : ℕ) :
    ((link s buffer m r info).heap x).map core =
      if x = s.next then some (CL_MEM_SUBBUFFER_TYPE, m.bo, m.subs) else (s.heap x).map core := by
  rw [link, core_setSubs, core_setPrev, core_addRef]
  by_cases hx : x = s.next
  · subst hx
    simp only [Function.update_self, if_true, Option.map_some, core]
  · simp only [Function.update_of_ne hx, if_neg hx]

theorem subs_setSubs (s : State) {a : ℕ} (sub : ℕ) {m : MemBuffer} (h : s.heap a = some m) :
    ((s.setSubs a sub).heap a).map (·.subs) = some (some sub) := by
  simp [State.setSubs, State.modify, h]

/-- The buffer's list after it. -/
theorem subs_link (s : State) {buffer : ℕ} {m : MemBuffer} (hbuffer : s.heap buffer = some m)
    (hne : buffer ≠ s.next) (r : Request) (info : Region) :
    ((link s buffer m r info).heap buffer).map (·.subs) = some (some s.next) := by
  have hcore := core_link s buffer m r info buffer
  rw [if_neg hne, hbuffer, link, core_setSubs, Option.map_some, Option.map_eq_some_iff] at hcore
  obtain ⟨m', hm', -⟩ := hcore
  exact subs_setSubs _ _ hm'

theorem Links.congr {s s' : State} {subs : List ℕ}
    (h : ∀ a ∈ subs, (s'.heap a).map (·.sub_next) = (s.heap a).map (·.sub_next))
    (hs : Links s subs) : Links s' subs := by
  induction subs with
  | nil => trivial
  | cons a subs ih =>
    obtain ⟨hnext, hrest⟩ := hs
    exact ⟨(h a List.mem_cons_self).trans hnext,
      ih (fun b hb => h b (List.mem_cons_of_mem _ hb)) hrest⟩

theorem Links.append {s : State} {front : List ℕ} {a : ℕ} {back : List ℕ}
    (h : Links s (front ++ a :: back)) : Links s (a :: back) := by
  induction front with
  | nil => exact h
  | cons b front ih => exact ih h.2

theorem core_eq_some {s : State} {x : ℕ} {t : MemType} {b : ℕ} {n : Option ℕ} :
    (s.heap x).map core = some (t, b, n) ↔
      ∃ m, s.heap x = some m ∧ m.type = t ∧ m.bo = b ∧ m.sub_next = n := by
  simp [Option.map_eq_some_iff, core]

theorem next_of_core {s s' : State} {x : ℕ} (h : (s'.heap x).map core = (s.heap x).map core) :
    (s'.heap x).map (·.sub_next) = (s.heap x).map (·.sub_next) := by
  have hnext := congrArg (Option.map fun c : MemType × ℕ × Option ℕ => c.2.2) h
  rw [Option.map_map, Option.map_map] at hnext
  exact hnext

theorem next_link (s : State) (buffer : ℕ) (m : MemBuffer) (r : Request) (info : Region) :
    (link s buffer m r info).next = s.next + 1 := by
  cases hsubs : m.subs <;>
    simp [link, State.setSubs, State.setPrev, State.addRef, State.modify, hsubs]

theorem refs_link (s : State) (buffer : ℕ) (m : MemBuffer) (r : Request) (info : Region) :
    (link s buffer m r info).refs = s.refs := by
  cases hsubs : m.subs <;>
    simp [link, State.setSubs, State.setPrev, State.addRef, State.modify, hsubs]

/-- Objects lie below the first free address. -/
theorem Family.lt {s : State} {buffer bo : ℕ} {subs : List ℕ} (h : Family s buffer bo subs)
    {a : ℕ} {m : MemBuffer} (ha : s.heap a = some m) : a < s.next := by
  by_contra hle
  rw [h.fresh a (by omega)] at ha
  cases ha

/-- The new sub-buffer is the head of the list. -/
theorem Family.link {s : State} {buffer bo : ℕ} {subs : List ℕ} (h : Family s buffer bo subs)
    {m : MemBuffer} (hm : s.heap buffer = some m) (r : Request) (info : Region) :
    Family (link s buffer m r info) buffer bo (s.next :: subs) := by
  obtain ⟨m0, hm0, htype, hbo, hsubs⟩ := h.head
  obtain rfl : m0 = m := Option.some.inj (hm0.symm.trans hm)
  have hbuffer := (h.lt hm).ne
  have hold : ∀ a ∈ subs, a ≠ s.next := by
    intro a ha
    obtain ⟨m', hm', -⟩ := h.sub a ha
    exact (h.lt hm').ne
  have hcore := core_link s buffer m0 r info
  have hnew := hcore s.next
  rw [if_pos rfl] at hnew
  refine ⟨?_, ?_, ?_, ?_, ?_⟩
  · have hhead := hcore buffer
    rw [if_neg hbuffer, hm, Option.map_some, core, core_eq_some] at hhead
    obtain ⟨m', hm', htype', hbo', -⟩ := hhead
    refine ⟨m', hm', htype'.trans htype, hbo'.trans hbo, ?_⟩
    have hlist := subs_link s hm hbuffer r info
    rw [hm', Option.map_some] at hlist
    exact Option.some.inj hlist
  · intro a ha
    rcases List.mem_cons.mp ha with rfl | ha
    · obtain ⟨m', hm', htype', hbo', -⟩ := core_eq_some.mp hnew
      exact ⟨m', hm', htype', hbo'.trans hbo⟩
    · obtain ⟨m', hm', htype', hbo'⟩ := h.sub a ha
      have hsame := hcore a
      rw [if_neg (hold a ha), hm', Option.map_some, core, core_eq_some] at hsame
      obtain ⟨m'', hm'', ht, hb, -⟩ := hsame
      exact ⟨m'', hm'', ht.trans htype', hb.trans hbo'⟩
  · refine ⟨?_, h.links.congr fun a ha => next_of_core ?_⟩
    · obtain ⟨m', hm', -, -, hnext⟩ := core_eq_some.mp hnew
      rw [hm', Option.map_some, hnext, hsubs]
    · rw [hcore a, if_neg (hold a ha)]
  · have hnodup := List.nodup_cons.mp h.nodup
    refine List.nodup_cons.mpr ⟨?_, List.nodup_cons.mpr ⟨fun ha => hold _ ha rfl, hnodup.2⟩⟩
    rw [List.mem_cons, not_or]
    exact ⟨hbuffer, hnodup.1⟩
  · intro a ha
    rw [next_link] at ha
    have hnone := hcore a
    rw [if_neg (by omega), h.fresh a (by omega), Option.map_none, Option.map_eq_none_iff] at hnone
    exact hnone

/-- A sub-buffer is a new head of the list; a failure keeps it. -/
theorem Family.create {s s' : State} {buffer bo : ℕ} {subs : List ℕ} {align : BitVec 32}
    {r : Request} {mem : Except Error ℕ} (h : Family s buffer bo subs)
    (hrun : cl_mem_new_sub_buffer align s buffer r = some (s', mem)) :
    s'.refs = s.refs ∧
      Family s' buffer bo ((match mem with | .ok sub => [sub] | .error _ => []) ++ subs) := by
  obtain ⟨m, hm, -⟩ := h.head
  rw [cl_mem_new_sub_buffer, hm, Option.bind_eq_bind, Option.bind_some] at hrun
  split at hrun
  · cases hrun
    exact ⟨rfl, h⟩
  · next info hcheck =>
    cases hrun
    exact ⟨refs_link .., h.link hm r info⟩

/-- All sub-buffers that are created. -/
theorem Family.creations {buffer bo : ℕ} {align : BitVec 32} {requests : List Request}
    {s s' : State} {subs new : List ℕ} (h : Family s buffer bo subs)
    (hrun : creations align buffer s requests = some (s', new)) :
    s'.refs = s.refs ∧ Family s' buffer bo (new ++ subs) := by
  induction requests generalizing s subs new with
  | nil =>
    cases hrun
    exact ⟨rfl, h⟩
  | cons r requests ih =>
    rw [SubBuffers.creations, Option.bind_eq_bind, Option.bind_eq_some_iff] at hrun
    obtain ⟨⟨s1, mem⟩, hcreate, hrun⟩ := hrun
    rw [Option.bind_eq_bind, Option.bind_eq_some_iff] at hrun
    obtain ⟨⟨s2, new1⟩, hrest, hrun⟩ := hrun
    obtain ⟨hrefs, hfamily⟩ := h.create hcreate
    cases mem with
    | error e =>
      cases hrun
      obtain ⟨hrefs', hfamily'⟩ := ih hfamily hrest
      exact ⟨hrefs'.trans hrefs, hfamily'⟩
    | ok sub =>
      cases hrun
      obtain ⟨hrefs', hfamily'⟩ := ih hfamily hrest
      exact ⟨hrefs'.trans hrefs, by simpa using hfamily'⟩

theorem family_of_isBuffer {s : State} {buffer bo : ℕ} (h : IsBuffer s buffer bo) :
    Family s buffer bo [] := by
  obtain ⟨⟨m, hm, htype, hbo, hsubs⟩, hfresh⟩ := h
  exact ⟨⟨m, hm, htype, hbo, hsubs⟩, fun a ha => absurd ha List.not_mem_nil, trivial,
    List.nodup_singleton _, hfresh⟩

/-! ### The replacement -/

theorem switch_some {s : State} {a : ℕ} {m : MemBuffer} (h : s.heap a = some m) (new_bo : ℕ) :
    switch s a new_bo = some (switched s a m new_bo) := by
  rw [switch, h]
  rfl

theorem heap_switched (s : State) (a : ℕ) (m : MemBuffer) (new_bo : ℕ) :
    (switched s a m new_bo).heap a = some { m with bo := new_bo } := Function.update_self ..

theorem heap_switched_of_ne (s : State) {a x : ℕ} (hx : x ≠ a) (m : MemBuffer) (new_bo : ℕ) :
    (switched s a m new_bo).heap x = s.heap x := Function.update_of_ne hx ..

theorem next_switched {s : State} {a : ℕ} {m : MemBuffer} (h : s.heap a = some m) (new_bo x : ℕ) :
    ((switched s a m new_bo).heap x).map (·.sub_next) = (s.heap x).map (·.sub_next) := by
  by_cases hx : x = a
  · rw [hx, heap_switched, h]
    rfl
  · rw [heap_switched_of_ne s hx]

/-- A walk along the list does not meet the object that it started behind, and ends at NULL. -/
theorem walk_eq_none {buffer new_bo : ℕ} {subs : List ℕ} (hnot : buffer ∉ subs) (fuel : ℕ)
    {s : State} (hlinks : Links s subs) : walk buffer new_bo fuel s subs.head? = none := by
  induction subs generalizing fuel s with
  | nil =>
    cases fuel with
    | zero => rfl
    | succ fuel => rfl
  | cons a subs ih =>
    cases fuel with
    | zero => rfl
    | succ fuel =>
      have hne : some a ≠ some buffer := by
        rintro ⟨⟩
        exact hnot List.mem_cons_self
      obtain ⟨m, hm, hnext⟩ := Option.map_eq_some_iff.mp hlinks.1
      have hrest := hlinks.2.congr fun x _ => next_switched hm new_bo x
      rw [walk, List.head?_cons, if_neg hne]
      simp only [Option.bind_eq_bind, Option.bind_some, switch_some hm, heap_switched, hnext]
      exact ih (fun h => hnot (List.mem_cons_of_mem _ h)) fuel hrest

/-- From a sub-buffer the replacement does not return. -/
theorem replace_sub {s : State} {buffer bo : ℕ} {subs : List ℕ} (h : Family s buffer bo subs)
    {sub : ℕ} (hsub : sub ∈ subs) (fuel new_bo : ℕ) :
    cl_mem_replace_buffer fuel s sub new_bo = none := by
  obtain ⟨front, back, rfl⟩ := List.append_of_mem hsub
  obtain ⟨m, hm, htype, -⟩ := h.sub sub hsub
  have hback : sub ∉ back := by
    have hnodup := (List.nodup_append.mp (List.nodup_cons.mp h.nodup).2).2.1
    exact (List.nodup_cons.mp hnodup).1
  have hnext := h.links.append.1
  rw [hm, Option.map_some, Option.some.injEq] at hnext
  have hlinks := h.links.append.2.congr fun x _ => next_switched hm new_bo x
  simp only [cl_mem_replace_buffer, switch_some hm, Option.bind_eq_bind, Option.bind_some,
    heap_switched, hnext]
  rw [if_neg (not_not.mpr htype)]
  exact walk_eq_none hback fuel hlinks

/-- From the buffer only the buffer itself is switched. -/
theorem replace_buffer {s : State} {buffer bo : ℕ} {subs : List ℕ} (h : Family s buffer bo subs)
    (fuel new_bo : ℕ) :
    cl_mem_replace_buffer fuel s buffer new_bo = switch s buffer new_bo := by
  obtain ⟨m, hm, htype, -⟩ := h.head
  simp only [cl_mem_replace_buffer, switch_some hm, Option.bind_eq_bind, Option.bind_some,
    heap_switched, htype]
  rfl

/-- A buffer, any sub-buffers that are created of it, and another storage object: the replacement
on a member of the family reaches them all iff the member is the buffer and there is no
sub-buffer. -/
theorem replace_reaches_iff {s0 s : State} {buffer bo : ℕ} {align : BitVec 32}
    {requests : List Request} {subs : List ℕ} (h0 : IsBuffer s0 buffer bo)
    (hrun : creations align buffer s0 requests = some (s, subs)) {object : ℕ}
    (hobject : object ∈ buffer :: subs) {new_bo : ℕ} (hnew : new_bo ≠ bo) :
    Reaches s (buffer :: subs) bo object new_bo ↔ object = buffer ∧ subs = [] := by
  obtain ⟨-, h⟩ := (family_of_isBuffer h0).creations hrun
  rw [List.append_nil] at h
  obtain ⟨m, hm, htype, hbo, -⟩ := h.head
  constructor
  · rintro ⟨fuel, s', hreplace, hall, -⟩
    rcases List.mem_cons.mp hobject with rfl | hsub
    · refine ⟨rfl, ?_⟩
      by_contra hne
      obtain ⟨sub, rest, rfl⟩ := List.exists_cons_of_ne_nil hne
      -- the first sub-buffer keeps the old storage
      obtain ⟨m', hm', -, hbo'⟩ := h.sub sub List.mem_cons_self
      have hdiff : sub ≠ object := fun heq =>
        (List.nodup_cons.mp h.nodup).1 (heq ▸ List.mem_cons_self)
      rw [replace_buffer h, switch_some hm] at hreplace
      cases hreplace
      obtain ⟨m'', hm'', hbo''⟩ := hall sub (List.mem_cons_of_mem _ List.mem_cons_self)
      rw [heap_switched_of_ne s hdiff, hm'] at hm''
      cases hm''
      exact hnew (hbo''.symm.trans hbo')
    · rw [replace_sub h hsub] at hreplace
      cases hreplace
  · rintro ⟨rfl, rfl⟩
    refine ⟨0, _, (replace_buffer h 0 new_bo).trans (switch_some hm new_bo), ?_, ?_, ?_⟩
    · intro a ha
      obtain rfl := List.mem_singleton.mp ha
      exact ⟨_, heap_switched .., rfl⟩
    · simp [switched, hbo, hnew]
    · simp [switched, hbo, hnew.symm]

/-- A buffer of 4096 bytes at address 0. -/
def single : State where
  heap a :=
    if a = 0 then
      some { type := CL_MEM_BUFFER_TYPE, flags := CL_MEM_READ_WRITE, ref_n := 1, bo := 0,
             size := 4096, subs := none, sub_offset := 0, sub_prev := none, sub_next := none,
             parent := none }
    else none
  next := 1
  refs bo := if bo = 0 then 1 else 0

theorem isBuffer_single : IsBuffer single 0 0 := by
  refine ⟨⟨_, rfl, rfl, rfl, rfl⟩, fun a ha => if_neg ?_⟩
  have hpos : 1 ≤ a := ha
  omega

/-- The first half of the buffer. -/
def half : Request := ⟨0, true, some ⟨0, 2048⟩, true⟩

/-- A buffer alone. -/
theorem replace_reaches_single : IsBuffer single 0 0 ∧ Reaches single [0] 0 0 1 := by
  have hrun : creations 1024 0 single [] = some (single, []) := rfl
  exact ⟨isBuffer_single,
    (replace_reaches_iff isBuffer_single hrun List.mem_cons_self (by omega)).mpr ⟨rfl, rfl⟩⟩

/-- With one sub-buffer, the replacement on the buffer leaves it at the old storage. -/
theorem not_reaches_half : ∃ s, creations 1024 0 single [half] = some (s, [1]) ∧
    ¬ Reaches s [0, 1] 0 0 1 := by
  refine ⟨_, rfl, ?_⟩
  rintro ⟨fuel, s', hreplace, hall, -⟩
  cases hreplace
  obtain ⟨m, hm, hbo⟩ := hall 1 (by simp)
  cases hm
  cases hbo

end SubBuffers

end Runtime
