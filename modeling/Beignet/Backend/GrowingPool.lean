/-
Pools of elements of one type: `GrowingPool` (`sys/alloc.hpp`).

Elements are cut from chunks, each twice as large as the one before; what has been given back is
chained through its own first bytes.  `live` lists the elements that are out.

* `Pooled.pointer_le` — each type that has a pool is at least as large as a pointer;
* `next_keeps` — what each step keeps;
* **`growing_pool_safe`** — live elements do not overlap, and only their owner changes them.
-/
import Beignet.Lib.Buffer
import Beignet.Lib.FreeChain
import Beignet.Lib.Layout
import Beignet.Lib.Transition

namespace Backend

namespace Alloc

open FreeChain (Chain)
open Layout (roundUp)

/-! ### The types -/

/-- `sizeof(T)` and `ALIGNOF(T)` -/
structure ElemType where
  size : ℕ
  align : ℕ

/-- A structure of members with a size and an alignment each. -/
def structOf (members : List (ℕ × ℕ)) : ElemType :=
  let align := (members.map Prod.snd).foldl max 1
  ⟨roundUp (members.foldl (fun offset member => roundUp offset member.2 + member.1) 0) align, align⟩

def pointer : ℕ × ℕ := (8, 8)
def uint32 : ℕ × ℕ := (4, 4)
def uint16 : ℕ × ℕ := (2, 2)
def bool : ℕ × ℕ := (1, 1)

/-- `intrusive_list_node`, and the root of an `intrusive_list` -/
def listNode : List (ℕ × ℕ) := [pointer, pointer]

/-- A tree of the standard library: the comparison, the node at the head (colour and three links)
and the number of nodes. -/
def rbTree : List (ℕ × ℕ) := [bool, (32, 8), pointer]

/-- The types with a `DECL_POOL`. -/
inductive Pooled where
  | ScheduleListNode | ScheduleDAGNode
  | SelectionBlock | SelectionVector | SelectionDAG
  | Block
  | ValueDef | ValueUse | DefSet | UseSet | RegDefSet | BlockDefMap
  | Instruction

/-- The layout of each type. -/
def Pooled.type : Pooled → ElemType
  | ScheduleListNode => structOf (listNode ++ [pointer, uint32])
  | ScheduleDAGNode =>
    structOf (listNode ++ [pointer, uint32, uint32, uint32, uint32, bool, uint32])
  | SelectionBlock => structOf (listNode ++ listNode ++ listNode ++
      [pointer, pointer, pointer, pointer, uint32, uint32, bool, bool])
  | SelectionVector => structOf (listNode ++ [pointer, pointer, uint16, uint16, uint16])
  | SelectionDAG => structOf [(512, 8), pointer, (8, 8), (1, 4), bool, bool]
  | Block => structOf [pointer, pointer, uint32, uint32]
  | ValueDef => structOf [(16, 8), uint32]
  | ValueUse => structOf [pointer, uint32]
  | DefSet | UseSet | RegDefSet | BlockDefMap => structOf rbTree
  | Instruction => structOf ([(32, 32)] ++ listNode ++ [(8, 4), pointer])

theorem Pooled.pointer_le (T : Pooled) : 8 ≤ T.type.size := by
  cases T <;> decide

/-! ### The pool -/

/-- A chunk of elements. -/
structure GrowingPoolElem where
  data : ℕ
  allocated : ℕ
  maxElemNum : ℕ

/-- The chunks in use, the others, and the chain of elements given back. -/
structure GrowingPool where
  curr : GrowingPoolElem
  free : List GrowingPoolElem
  full : List GrowingPoolElem
  freeList : ℕ

/-- The memory, by addresses. -/
abbrev Mem := ℕ → BitVec 8

/-- `*(void**) p` -/
def readPtr (m : Mem) (p : ℕ) : ℕ := Buffer.number ((List.range 8).map fun k => m (p + k))

/-- `*(void**) p = q` -/
def writePtr (m : Mem) (p q : ℕ) : Mem := fun x =>
  if p ≤ x ∧ x < p + 8 then (Buffer.bytes 8 q).getD (x - p) 0 else m x

def size_t (n : ℕ) : ℕ := n % 2 ^ 64

section

variable (T : ElemType)

/-- The bytes that a chunk asks for. -/
def chunkBytes (elemNum : ℕ) : ℕ := size_t (elemNum * max T.size 8)

/-- `alignedMalloc` may return `data` next to the other chunks; no object has `2 ^ 63` bytes. -/
def Granted (others : List GrowingPoolElem) (elemNum data : ℕ) : Prop :=
  chunkBytes T elemNum < 2 ^ 63 ∧ T.align ∣ data ∧ 0 < data ∧
    data + chunkBytes T elemNum ≤ 2 ^ 64 ∧ ∀ c ∈ others,
      data + chunkBytes T elemNum ≤ c.data ∨ c.data + chunkBytes T c.maxElemNum ≤ data

instance (others : List GrowingPoolElem) (elemNum data : ℕ) :
    Decidable (Granted T others elemNum data) :=
  inferInstanceAs (Decidable (_ ∧ _ ∧ _ ∧ _ ∧ _))

/-- A chunk of which nothing is taken. -/
def newElem (elemNum data : ℕ) : GrowingPoolElem := ⟨data, 0, elemNum⟩

/-- All chunks. -/
def GrowingPool.chunks (p : GrowingPool) : List GrowingPoolElem := p.curr :: (p.full ++ p.free)

/-- `(T*) curr->data + curr->allocated++` -/
def GrowingPool.take (p : GrowingPool) : ℕ × GrowingPool :=
  (p.curr.data + p.curr.allocated * T.size,
    { p with curr := { p.curr with allocated := p.curr.allocated + 1 } })

/-- `data` is where a new chunk would be. -/
def GrowingPool.allocate (p : GrowingPool) (m : Mem) (data : ℕ) : Option (ℕ × GrowingPool) :=
  if p.freeList ≠ 0 then some (p.freeList, { p with freeList := readPtr m p.freeList })
  else if p.curr.allocated < p.curr.maxElemNum then some (p.take T)
  else
    let full := p.curr :: p.full
    match p.free with
    | c :: free => some (GrowingPool.take T { p with curr := c, free, full })
    | [] =>
      let elemNum := size_t (2 * p.curr.maxElemNum)
      if Granted T p.chunks elemNum data then
        some (GrowingPool.take T { p with curr := newElem elemNum data, full })
      else none

/-- The loop of `rewind`. -/
def recycle : List GrowingPoolElem → List GrowingPoolElem → List GrowingPoolElem
  | [], free => free
  | c :: full, free => recycle full ({ c with allocated := 0 } :: free)

def GrowingPool.rewind (p : GrowingPool) : GrowingPool :=
  match recycle (p.curr :: p.full) p.free with
  | c :: free => ⟨c, free, [], 0⟩
  -- the assertion of `getFreeBlock`
  | [] => p

/-- The pool, the memory and the elements that are out. -/
structure State where
  pool : GrowingPool
  mem : Mem
  live : List ℕ

/-- The constructor. -/
def construct (elemNum : BitVec 32) (m : Mem) (data : ℕ) : Option State :=
  let elemNum := if elemNum ≤ 1 then 1 else elemNum.toNat
  if Granted T [] elemNum data then some ⟨⟨newElem elemNum data, [], [], 0⟩, m, []⟩ else none

/-- What a user of the pool does, a write of its own bytes included. -/
inductive Action where
  | allocate (data : ℕ)
  | deallocate (t : ℕ)
  | rewind
  /-- the owner of `t` writes a byte -/
  | store (t offset : ℕ) (byte : BitVec 8)

/-- An action that is allowed. -/
def next (s : State) : Action → Option State
  | .allocate data => (s.pool.allocate T s.mem data).map fun r =>
      { s with pool := r.2, live := r.1 :: s.live }
  | .deallocate t =>
    if t = 0 then some s
    else if t ∈ s.live then
      some ⟨{ s.pool with freeList := t }, writePtr s.mem t s.pool.freeList, s.live.erase t⟩
    else none
  | .rewind => some { s with pool := s.pool.rewind, live := [] }
  | .store t offset byte =>
    if t ∈ s.live ∧ offset < T.size then
      some { s with mem := Function.update s.mem (t + offset) byte }
    else none

end

/-! ### Pointers -/

theorem readPtr_congr {m m' : Mem} {p : ℕ} (h : ∀ k < 8, m' (p + k) = m (p + k)) :
    readPtr m' p = readPtr m p := by
  rw [readPtr, readPtr]
  congr 1
  exact List.map_congr_left fun k hk => h k (List.mem_range.mp hk)

theorem writePtr_of_notMem (m : Mem) (p q : ℕ) {x : ℕ} (h : ¬ (p ≤ x ∧ x < p + 8)) :
    writePtr m p q x = m x := if_neg h

theorem readPtr_writePtr (m : Mem) (p : ℕ) {q : ℕ} (hq : q < 2 ^ 64) :
    readPtr (writePtr m p q) p = q := by
  have hbytes : ((List.range 8).map fun k => writePtr m p q (p + k)) = Buffer.bytes 8 q := by
    refine List.ext_getElem (by simp) fun k hk _ => ?_
    have hk : k < 8 := by simpa using hk
    rw [List.getElem_map, List.getElem_range, writePtr, if_pos ⟨by omega, by omega⟩,
      Nat.add_sub_cancel_left, List.getD_eq_getElem?_getD,
      List.getElem?_eq_getElem (by simpa using hk), Option.getD_some]
  rw [readPtr, hbytes, Buffer.number_bytes]
  exact Nat.mod_eq_of_lt hq

/-! ### Chunks and their elements -/

section

variable (T : ElemType)

/-- Elements that do not overlap. -/
def Apart (e e' : ℕ) : Prop := e + T.size ≤ e' ∨ e' + T.size ≤ e

instance : Std.Symm (Apart T) := ⟨fun _ _ => Or.symm⟩

/-- The bytes behind `data`. -/
def room (c : GrowingPoolElem) : ℕ := c.maxElemNum * max T.size 8

/-- The element is inside the memory of the chunk. -/
def Within (e : ℕ) (c : GrowingPoolElem) : Prop :=
  c.data ≤ e ∧ e + T.size ≤ c.data + chunkBytes T c.maxElemNum

/-- What has been cut from a chunk. -/
def elements (c : GrowingPoolElem) : List ℕ :=
  (List.range c.allocated).map fun i => c.data + i * T.size

def carved (chunks : List GrowingPoolElem) : List ℕ := chunks.flatMap (elements T)

/-- A chunk in its memory. -/
structure Sound (c : GrowingPoolElem) : Prop where
  allocated_le : c.allocated ≤ c.maxElemNum
  pos : 0 < c.maxElemNum
  data_pos : 0 < c.data
  room_lt : room T c < 2 ^ 63
  data_le : c.data + room T c ≤ 2 ^ 64

/-- The rooms of two chunks do not overlap. -/
def RoomsApart (c d : GrowingPoolElem) : Prop :=
  c.data + room T c ≤ d.data ∨ d.data + room T d ≤ c.data

theorem RoomsApart.symm {T : ElemType} {c d : GrowingPoolElem} (h : RoomsApart T c d) :
    RoomsApart T d c := Or.symm h

variable {T}

theorem chunkBytes_eq {c : GrowingPoolElem} (h : Sound T c) :
    chunkBytes T c.maxElemNum = room T c := by
  have hlt := h.room_lt
  rw [room] at hlt ⊢
  rw [chunkBytes, size_t, Nat.mod_eq_of_lt (by omega)]

theorem mem_elements {c : GrowingPoolElem} {e : ℕ} :
    e ∈ elements T c ↔ ∃ i < c.allocated, e = c.data + i * T.size := by
  simp only [elements, List.mem_map, List.mem_range, eq_comm]

theorem Sound.within {c : GrowingPoolElem} (h : Sound T c) {e : ℕ} (he : e ∈ elements T c) :
    Within T e c := by
  obtain ⟨i, hi, rfl⟩ := mem_elements.mp he
  refine ⟨Nat.le_add_right _ _, ?_⟩
  have hroom : (i + 1) * T.size ≤ room T c :=
    Nat.mul_le_mul (hi.trans_le h.allocated_le) (le_max_left _ _)
  rw [Nat.succ_mul] at hroom
  rw [chunkBytes_eq h]
  omega

theorem pairwise_elements (c : GrowingPoolElem) : (elements T c).Pairwise (Apart T) := by
  refine List.pairwise_map.mpr (List.pairwise_lt_range.imp fun {i j} hij => Or.inl ?_)
  have := Nat.mul_le_mul_right T.size (Nat.succ_le_of_lt hij)
  rw [Nat.succ_mul] at this
  omega

/-- Elements of chunks in rooms of their own do not overlap. -/
theorem pairwise_carved {chunks : List GrowingPoolElem} (hsound : ∀ c ∈ chunks, Sound T c)
    (hrooms : chunks.Pairwise (RoomsApart T)) : (carved T chunks).Pairwise (Apart T) := by
  refine List.pairwise_flatMap.mpr ⟨fun c _ => pairwise_elements c, ?_⟩
  refine hrooms.imp_of_mem fun {c d} hc hd hcd e he e' he' => ?_
  obtain ⟨hec, hce⟩ := (hsound c hc).within he
  obtain ⟨hed, hde⟩ := (hsound d hd).within he'
  rw [chunkBytes_eq (hsound c hc)] at hce
  rw [chunkBytes_eq (hsound d hd)] at hde
  rcases hcd with h | h
  · exact Or.inl (by omega)
  · exact Or.inr (by omega)

/-! ### The invariant -/

/-- `chain` is the free list. -/
structure Inv (T : ElemType) (s : State) (chain : List ℕ) : Prop where
  sound : ∀ c ∈ s.pool.chunks, Sound T c
  rooms : s.pool.chunks.Pairwise (RoomsApart T)
  empty : ∀ c ∈ s.pool.free, c.allocated = 0
  freed : Chain (readPtr s.mem) 0 s.pool.freeList chain
  perm : (s.live ++ chain).Perm (carved T s.pool.chunks)

variable {s s' : State} {chain : List ℕ}

theorem Inv.apart (h : Inv T s chain) : (s.live ++ chain).Pairwise (Apart T) :=
  (h.perm.pairwise_iff fun h => Or.symm h).mpr (pairwise_carved h.sound h.rooms)

theorem Inv.within (h : Inv T s chain) {e : ℕ} (he : e ∈ s.live ++ chain) :
    ∃ c ∈ s.pool.chunks, Within T e c := by
  obtain ⟨c, hc, hec⟩ := List.mem_flatMap.mp (h.perm.mem_iff.mp he)
  exact ⟨c, hc, (h.sound c hc).within hec⟩

/-- What is written in one live element changes neither another nor the free list. -/
theorem Inv.chain_congr (h8 : 8 ≤ T.size) (h : Inv T s chain) {t : ℕ} (ht : t ∈ s.live) {m : Mem}
    (hm : ∀ x, ¬ (t ≤ x ∧ x < t + T.size) → m x = s.mem x) :
    ∀ e ∈ chain, readPtr m e = readPtr s.mem e := by
  intro e he
  have hapart := (List.pairwise_append.mp h.apart).2.2 t ht e he
  refine readPtr_congr fun k hk => hm _ ?_
  rcases hapart with hapart | hapart <;> omega

end

/-! ### Steps -/

section

variable {T : ElemType} {s s' : State} {chain : List ℕ} {p : GrowingPool} {m : Mem} {live : List ℕ}

/-- An element from the current chunk. -/
theorem take_keeps (h : Inv T ⟨p, m, live⟩ chain) (hroom : p.curr.allocated < p.curr.maxElemNum) :
    Inv T ⟨(p.take T).2, m, (p.take T).1 :: live⟩ chain := by
  have hsound := List.forall_mem_cons.mp h.sound
  have hrooms := List.pairwise_cons.mp h.rooms
  refine ⟨List.forall_mem_cons.mpr ⟨?_, hsound.2⟩, List.pairwise_cons.mpr hrooms, h.empty, h.freed,
    ?_⟩
  · exact ⟨hroom, hsound.1.pos, hsound.1.data_pos, hsound.1.room_lt, hsound.1.data_le⟩
  · have helements : elements T (p.take T).2.curr = elements T p.curr ++ [(p.take T).1] := by
      show (List.range (p.curr.allocated + 1)).map _ = _
      rw [List.range_succ, List.map_append]
      rfl
    have hcarved : carved T (p.take T).2.chunks =
        elements T p.curr ++ (p.take T).1 :: carved T (p.full ++ p.free) := by
      show elements T (p.take T).2.curr ++ _ = _
      rw [helements, List.append_assoc]
      rfl
    rw [hcarved]
    exact (h.perm.cons _).trans List.perm_middle.symm

/-- Elements go from the free list to their owners and back. -/
theorem Inv.relist {m' : Mem} {live' chain' : List ℕ} {freeList : ℕ} (h : Inv T ⟨p, m, live⟩ chain)
    (hfreed : Chain (readPtr m') 0 freeList chain')
    (hperm : (live' ++ chain').Perm (live ++ chain)) :
    Inv T ⟨{ p with freeList }, m', live'⟩ chain' :=
  ⟨h.sound, h.rooms, h.empty, hfreed, hperm.trans h.perm⟩

/-- The order of the chunks does not matter. -/
theorem Inv.of_perm {p' : GrowingPool} (h : Inv T ⟨p, m, live⟩ chain)
    (hchunks : p'.chunks.Perm p.chunks) (hfree : ∀ c ∈ p'.free, c ∈ p.free)
    (hlist : p'.freeList = p.freeList) : Inv T ⟨p', m, live⟩ chain where
  sound c hc := h.sound c (hchunks.mem_iff.mp hc)
  rooms := (hchunks.pairwise_iff RoomsApart.symm).mpr h.rooms
  empty c hc := h.empty c (hfree c hc)
  freed := hlist.symm ▸ h.freed
  perm := h.perm.trans (hchunks.symm.flatMap_right _)

/-- A new chunk in front of the others. -/
theorem Inv.grow (h : Inv T ⟨p, m, live⟩ chain) {data : ℕ}
    (hgrant : Granted T p.chunks (size_t (2 * p.curr.maxElemNum)) data) :
    Inv T ⟨⟨newElem (size_t (2 * p.curr.maxElemNum)) data, p.free, p.curr :: p.full, p.freeList⟩, m,
      live⟩ chain := by
  have hcurr := h.sound p.curr List.mem_cons_self
  have hlt := hcurr.room_lt
  have hpos := hcurr.pos
  have hmax : p.curr.maxElemNum ≤ room T p.curr :=
    Nat.le_mul_of_pos_right _ (by have := le_max_right T.size 8; omega)
  have hdouble : size_t (2 * p.curr.maxElemNum) = 2 * p.curr.maxElemNum :=
    Nat.mod_eq_of_lt (by omega)
  rw [hdouble] at hgrant ⊢
  obtain ⟨hbytes, -, hdata, hle, hapart⟩ := hgrant
  have hroom : chunkBytes T (2 * p.curr.maxElemNum) =
      room T (newElem (2 * p.curr.maxElemNum) data) := by
    have : 2 * p.curr.maxElemNum * max T.size 8 = 2 * room T p.curr := Nat.mul_assoc _ _ _
    exact Nat.mod_eq_of_lt (by omega)
  rw [hroom] at hbytes hle hapart
  have hchunks : GrowingPool.chunks ⟨newElem (2 * p.curr.maxElemNum) data, p.free,
      p.curr :: p.full, p.freeList⟩ = newElem (2 * p.curr.maxElemNum) data :: p.chunks := rfl
  refine ⟨?_, ?_, h.empty, h.freed, ?_⟩
  · rw [hchunks]
    refine List.forall_mem_cons.mpr ⟨⟨Nat.zero_le _, ?_, hdata, hbytes, hle⟩, h.sound⟩
    show 0 < 2 * p.curr.maxElemNum
    omega
  · rw [hchunks]
    refine List.pairwise_cons.mpr ⟨fun c hc => ?_, h.rooms⟩
    have hc' := hapart c hc
    rwa [chunkBytes_eq (h.sound c hc)] at hc'
  · rw [hchunks]
    exact h.perm

theorem recycle_eq (full free : List GrowingPoolElem) :
    recycle full free = (full.map fun c => { c with allocated := 0 }).reverse ++ free := by
  induction full generalizing free with
  | nil => rfl
  | cons c full ih =>
    rw [recycle, ih, List.map_cons, List.reverse_cons, List.append_assoc]
    rfl

/-- A chunk without elements. -/
def emptied (c : GrowingPoolElem) : GrowingPoolElem := { c with allocated := 0 }

theorem elements_emptied (c : GrowingPoolElem) : elements T (emptied c) = [] := rfl

/-- All chunks are empty after a rewind. -/
theorem chunks_rewind (hempty : ∀ c ∈ p.free, c.allocated = 0) :
    p.rewind.chunks.Perm (p.chunks.map emptied) ∧ p.rewind.freeList = 0 := by
  have hfree : p.free.map emptied = p.free := by
    refine (List.map_congr_left fun c hc => ?_).trans (List.map_id _)
    exact congrArg (GrowingPoolElem.mk c.data · c.maxElemNum) (hempty c hc).symm
  have hall : (recycle (p.curr :: p.full) p.free).Perm (p.chunks.map emptied) := by
    rw [recycle_eq, GrowingPool.chunks, ← List.cons_append, List.map_append, hfree]
    exact (List.reverse_perm _).append_right _
  rw [GrowingPool.rewind]
  split
  · next c free h =>
    rw [h] at hall
    exact ⟨hall, rfl⟩
  · next h =>
    rw [h] at hall
    exact absurd hall.length_eq (by simp [GrowingPool.chunks])

theorem rewind_keeps (h : Inv T s chain) :
    Inv T { s with pool := s.pool.rewind, live := [] } [] := by
  obtain ⟨hchunks, hlist⟩ := chunks_rewind h.empty
  have hmem : ∀ c ∈ s.pool.rewind.chunks, ∃ d ∈ s.pool.chunks, emptied d = c := fun c hc =>
    List.mem_map.mp (hchunks.mem_iff.mp hc)
  refine ⟨fun c hc => ?_, ?_, fun c hc => ?_, hlist, ?_⟩
  · obtain ⟨d, hd, rfl⟩ := hmem c hc
    have hsound := h.sound d hd
    exact ⟨Nat.zero_le _, hsound.pos, hsound.data_pos, hsound.room_lt, hsound.data_le⟩
  · exact (hchunks.pairwise_iff RoomsApart.symm).mpr (List.pairwise_map.mpr h.rooms)
  · obtain ⟨d, -, rfl⟩ := hmem c (List.mem_cons_of_mem _ (List.mem_append_right _ hc))
    rfl
  · have hcarved : carved T (s.pool.chunks.map emptied) = [] := by
      rw [carved, List.flatMap_map]
      exact List.flatMap_eq_nil_iff.mpr fun c _ => elements_emptied c
    exact (hcarved ▸ hchunks.flatMap_right _ : (carved T s.pool.rewind.chunks).Perm []).symm

theorem allocate_keeps (h : Inv T s chain) {data t : ℕ} {p : GrowingPool}
    (halloc : s.pool.allocate T s.mem data = some (t, p)) :
    ∃ chain', Inv T ⟨p, s.mem, t :: s.live⟩ chain' := by
  rw [GrowingPool.allocate] at halloc
  split_ifs at halloc with hlist hroom
  · -- the head of the free list
    rw [Option.some.injEq, Prod.mk.injEq] at halloc
    obtain ⟨rfl, rfl⟩ := halloc
    obtain ⟨rest, hchain, hrest⟩ := h.freed.pop hlist
    exact ⟨rest, h.relist hrest (hchain ▸ List.perm_middle.symm)⟩
  · obtain ⟨rfl, rfl⟩ := Prod.ext_iff.mp (Option.some.inj halloc)
    exact ⟨chain, take_keeps h hroom⟩
  · simp only at halloc
    split at halloc
    · -- a chunk from before the last rewind
      next c free hfree =>
      obtain ⟨rfl, rfl⟩ := Prod.ext_iff.mp (Option.some.inj halloc)
      have hmem : c ∈ s.pool.free := hfree ▸ List.mem_cons_self
      have hperm : (GrowingPool.chunks ⟨c, free, s.pool.curr :: s.pool.full, s.pool.freeList⟩).Perm
          s.pool.chunks := by
        rw [GrowingPool.chunks, GrowingPool.chunks, hfree]
        exact (@List.perm_middle _ _ (s.pool.curr :: s.pool.full) _).symm
      have hI := h.of_perm hperm (fun d hd => hfree ▸ List.mem_cons_of_mem _ hd) rfl
      refine ⟨chain, take_keeps hI ?_⟩
      show c.allocated < c.maxElemNum
      rw [h.empty c hmem]
      exact (h.sound c (List.mem_cons_of_mem _ (List.mem_append_right _ hmem))).pos
    · next hfree =>
      split_ifs at halloc with hgrant
      obtain ⟨rfl, rfl⟩ := Prod.ext_iff.mp (Option.some.inj halloc)
      have hI := h.grow hgrant
      refine ⟨chain, take_keeps (hfree ▸ hI) ?_⟩
      exact (hI.sound _ List.mem_cons_self).pos

theorem deallocate_keeps (h8 : 8 ≤ T.size) (h : Inv T s chain) {t : ℕ} (ht : t ∈ s.live) :
    Inv T ⟨{ s.pool with freeList := t }, writePtr s.mem t s.pool.freeList, s.live.erase t⟩
      (t :: chain) := by
  have hpos : ∀ e ∈ s.live ++ chain, 0 < e ∧ e < 2 ^ 64 := by
    intro e he
    obtain ⟨c, hc, hwithin⟩ := h.within he
    have hsound := h.sound c hc
    have := hsound.data_pos
    have := hsound.data_le
    have := hwithin.1
    have hle := hwithin.2
    rw [chunkBytes_eq hsound] at hle
    omega
  have hlist : s.pool.freeList < 2 ^ 64 := by
    by_cases hnull : s.pool.freeList = 0
    · omega
    · exact (hpos _ (List.mem_append_right _ (h.freed.mem_of_ne hnull))).2
  refine h.relist ?_ ?_
  · refine h.freed.push (hpos t (List.mem_append_left _ ht)).1.ne' (readPtr_writePtr _ _ hlist) ?_
    exact h.chain_congr h8 ht fun x hx => writePtr_of_notMem _ _ _ (by omega)
  · exact List.perm_middle.trans ((List.perm_cons_erase ht).symm.append_right chain)

/-- What is written in a live element stays in it. -/
theorem store_keeps (h8 : 8 ≤ T.size) (h : Inv T s chain) {t offset : ℕ} (ht : t ∈ s.live)
    (hoffset : offset < T.size) (byte : BitVec 8) :
    Inv T { s with mem := Function.update s.mem (t + offset) byte } chain := by
  refine h.relist (h.freed.congr (h.chain_congr h8 ht fun x hx => ?_)) (List.Perm.refl _)
  exact Function.update_of_ne (by omega) ..

theorem next_keeps (h8 : 8 ≤ T.size) {a : Action} (hnext : next T s a = some s')
    (h : ∃ chain, Inv T s chain) : ∃ chain, Inv T s' chain := by
  obtain ⟨chain, h⟩ := h
  cases a with
  | allocate data =>
    obtain ⟨⟨t, p⟩, halloc, rfl⟩ := Option.map_eq_some_iff.mp hnext
    exact allocate_keeps h halloc
  | deallocate t =>
    rw [next] at hnext
    split_ifs at hnext with hnull ht
    · exact ⟨chain, Option.some.inj hnext ▸ h⟩
    · exact ⟨t :: chain, Option.some.inj hnext ▸ deallocate_keeps h8 h ht⟩
  | rewind => exact ⟨[], Option.some.inj hnext ▸ rewind_keeps h⟩
  | store t offset byte =>
    rw [next] at hnext
    split_ifs at hnext with ht
    exact ⟨chain, Option.some.inj hnext ▸ store_keeps h8 h ht.1 ht.2 byte⟩

/-- Live elements change by a write of their owner only. -/
def Keeps (T : ElemType) (s : State) (a : Action) (s' : State) : Prop :=
  ∀ e ∈ s.live, e ∈ s'.live → (∀ offset byte, a ≠ .store e offset byte) →
    ∀ k < T.size, s'.mem (e + k) = s.mem (e + k)

/-- Different live elements have different bytes. -/
theorem Inv.apart_of_ne (h : Inv T s chain) {e t : ℕ} (he : e ∈ s.live) (ht : t ∈ s.live)
    (hne : e ≠ t) : Apart T e t :=
  (List.pairwise_append.mp h.apart).1.forall he ht hne

theorem Inv.nodup (h8 : 8 ≤ T.size) (h : Inv T s chain) : s.live.Nodup :=
  (List.pairwise_append.mp h.apart).1.imp fun {e e'} hapart heq => by
    rcases hapart with hapart | hapart <;> omega

theorem next_frame (h8 : 8 ≤ T.size) {a : Action} (hnext : next T s a = some s')
    (h : Inv T s chain) : Keeps T s a s' := by
  intro e he he' hstore k hk
  cases a with
  | allocate data =>
    obtain ⟨r, -, rfl⟩ := Option.map_eq_some_iff.mp hnext
    rfl
  | deallocate t =>
    rw [next] at hnext
    split_ifs at hnext with hnull ht
    · exact Option.some.inj hnext ▸ rfl
    · obtain rfl := Option.some.inj hnext
      have hne : e ≠ t := ((h.nodup h8).mem_erase_iff.mp he').1
      have hapart := h.apart_of_ne he ht hne
      refine writePtr_of_notMem _ _ _ ?_
      rcases hapart with hapart | hapart <;> omega
  | rewind => exact Option.some.inj hnext ▸ rfl
  | store t offset byte =>
    rw [next] at hnext
    split_ifs at hnext with ht
    obtain rfl := Option.some.inj hnext
    have hne : e ≠ t := fun heq => hstore offset byte (heq ▸ rfl)
    have hapart := h.apart_of_ne he ht.1 hne
    refine Function.update_of_ne ?_ ..
    rcases hapart with hapart | hapart <;> omega

theorem construct_keeps {elemNum : BitVec 32} {data : ℕ} (hsize : T.size < 2 ^ 31)
    (h : construct T elemNum m data = some s) : Inv T s [] := by
  simp only [construct] at h
  set n := if elemNum ≤ 1 then 1 else elemNum.toNat with hn
  have hpos : 0 < n ∧ n < 2 ^ 32 := by
    have := elemNum.isLt
    rw [hn]
    split
    · decide
    · next hgt =>
      have hgt : ¬ elemNum.toNat ≤ 1 := hgt
      omega
  split_ifs at h with hgrant
  obtain rfl := Option.some.inj h
  obtain ⟨hbytes, -, hdata, hle, -⟩ := hgrant
  have hroom : chunkBytes T n = room T (newElem n data) := by
    have hlt : n * max T.size 8 < 2 ^ 32 * 2 ^ 31 :=
      Nat.mul_lt_mul'' hpos.2 (max_lt hsize (by decide))
    exact Nat.mod_eq_of_lt (hlt.trans (by decide))
  rw [hroom] at hbytes hle
  refine ⟨fun c hc => ?_, List.pairwise_singleton _ _, fun c hc => ?_, rfl, ?_⟩
  · obtain rfl := List.mem_singleton.mp hc
    exact ⟨Nat.zero_le _, hpos.1, hdata, hbytes, hle⟩
  · exact absurd hc List.not_mem_nil
  · exact List.Perm.refl _

end

theorem Pooled.size_lt (T : Pooled) : T.type.size < 2 ^ 31 := by
  cases T <;> decide

/-- For all types that have a pool, in all runs. -/
theorem growing_pool_safe (T : Pooled) {elemNum : BitVec 32} {m : Mem} {data : ℕ} {s0 s : State}
    {as : List Action} (h0 : construct T.type elemNum m data = some s0)
    (h : Transition.exec (next T.type) s0 as = some s) :
    s.live.Pairwise (Apart T.type) ∧ (∀ e ∈ s.live, ∃ c ∈ s.pool.chunks, Within T.type e c) ∧
      ∀ a s', next T.type s a = some s' → Keeps T.type s a s' := by
  obtain ⟨chain, hI⟩ := Transition.exec_invariant (I := fun s => ∃ chain, Inv T.type s chain)
    (next_keeps T.pointer_le) h ⟨[], construct_keeps T.size_lt h0⟩
  refine ⟨(List.pairwise_append.mp hI.apart).1, fun e he => ?_, fun a s' hnext => ?_⟩
  · exact hI.within (List.mem_append_left _ he)
  · exact next_frame T.pointer_le hnext hI

/-- A chunk of one element, and after it one of two. -/
def blockRun : Option State :=
  (construct Pooled.Block.type 1 (fun _ => 0) 4096).bind fun s =>
    Transition.exec (next Pooled.Block.type) s [.allocate 0, .allocate 8192, .deallocate 4096]

theorem growing_pool_safe_block :
    let T := Pooled.Block.type
    let s := blockRun.get (by decide)
    s.live = [8192] ∧ s.live.Pairwise (Apart T) ∧
      (∀ e ∈ s.live, ∃ c ∈ s.pool.chunks, Within T e c) ∧
        ∀ a s', next T s a = some s' → Keeps T s a s' :=
  ⟨by decide, @growing_pool_safe .Block 1 (fun _ => 0) 4096
    ⟨⟨⟨4096, 0, 1⟩, [], [], 0⟩, fun _ => 0, []⟩ _
    [.allocate 0, .allocate 8192, .deallocate 4096] rfl rfl⟩
end Alloc

end Backend
