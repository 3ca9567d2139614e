/-
Kernels that enqueue kernels: the device side, `__enqueue_kernel_basic` and
`__gen_enqueue_kernel_slm` of `libocl/src/ocl_enqueue.cl`, and the host side,
`cl_device_enqueue_bind_buffer` and `cl_device_enqueue_parse_result` of
`cl_device_enqueue.c`, called from `cl_enqueue_ndrange` (`cl_enqueue.c`).

A work item reserves room for its record with an atomic addition to the word in front
of the buffer and then stores the record byte by byte, while other work items do the
same.  When the last sub-launch of a call is over, the host walks the records and
enqueues a child for each.  The size of a block literal and the size of its SLM
arguments are read through the descriptor that the literal points to.

Neither the word in front of the buffer nor the flag that the buffer was set up is ever
reset, and the reference that is taken with the flag is given back after every launch.

* `parse_records` — the host finds the records in the order of the reservations;
* `stores_land` — whatever the order of the stores, every record is in its place when
  all of them are done;
* `deviceEnqueue_once_iff` — in every history of launches of a kernel object, each
  launch enqueues its own children once and keeps the reference count, exactly when
  there is at most one launch.
-/
import Beignet.Lib.Lists
import Beignet.Lib.Serial
import Beignet.Lib.Transition

open Transition Lists

namespace Runtime.DeviceEnqueue

/-- For the literals of `Fin 3`. -/
local instance neZero_three : NeZero 3 := ⟨by decide⟩

open Codec (Byte le32 word)

/-! ### Records -/

/-- One `int` for each dimension. -/
abbrev Ints := Fin 3 → BitVec 32

structure NDRangeInfo where
  type : BitVec 32
  global_work_size : Ints
  local_work_size : Ints
  global_work_offset : Ints

/-- The sizes that the caller of `ndrange_1D`, `ndrange_2D` and `ndrange_3D` gives. -/
inductive Extent
  | global (global_work_size : Ints)
  | localSize (global_work_size local_work_size : Ints)
  | offset (global_work_offset global_work_size local_work_size : Ints)

/-- An `ndrange_t`: `dim` is one less than the number of dimensions. -/
structure NDRange where
  dim : Fin 3
  extent : Extent

namespace Extent

def kind : Extent → BitVec 32
  | global _ => 1
  | localSize _ _ => 2
  | offset _ _ _ => 3

def globalSize : Extent → Ints
  | global g => g
  | localSize g _ => g
  | offset _ g _ => g

end Extent

/-- What the constructors of `ndrange_t` store; the fields they leave alone hold what
was there. -/
def NDRange.info (r : NDRange) (old : NDRangeInfo) : NDRangeInfo where
  type := r.extent.kind + 16 * BitVec.ofNat 32 r.dim
  global_work_size i := if i ≤ r.dim then r.extent.globalSize i else old.global_work_size i
  local_work_size i := match r.extent with
    | .localSize _ l | .offset _ _ l => if i ≤ r.dim then l i else old.local_work_size i
    | .global _ => old.local_work_size i
  global_work_offset i := match r.extent with
    | .offset o _ _ => if i ≤ r.dim then o i else old.global_work_offset i
    | _ => old.global_work_offset i

/-- The ten words of an `ndrange_info_t`. -/
def NDRangeInfo.words (x : NDRangeInfo) : List (BitVec 32) :=
  [x.type, x.global_work_size 0, x.global_work_size 1, x.global_work_size 2, x.local_work_size 0,
    x.local_work_size 1, x.local_work_size 2, x.global_work_offset 0, x.global_work_offset 1,
    x.global_work_offset 2]

def NDRangeInfo.ofWords (ws : List (BitVec 32)) : NDRangeInfo where
  type := ws.getD 0 0
  global_work_size i := ws.getD (1 + i) 0
  local_work_size i := ws.getD (4 + i) 0
  global_work_offset i := ws.getD (7 + i) 0

/-- The pointer to the descriptor in a block literal. -/
def descriptor (literal : List Byte) : List Byte := (literal.drop 24).take 8

/-- The number of the kernel in a block literal. -/
def index (literal : List Byte) : BitVec 32 := word ((literal.drop 16).take 4)

/-- What the compiler knows of the blocks, by the address of their descriptor: the size
of the literal and the number of SLM arguments. -/
structure Blocks where
  size : List Byte → ℕ
  localArgs : List Byte → ℕ

/-- A record as a work item appends it. -/
structure Record (blocks : Blocks) where
  range : NDRange
  /-- the contents of the fields that the constructor of the range leaves alone -/
  old : NDRangeInfo
  literal : List Byte
  slm_sizes : List (BitVec 32)
  literal_ge : 32 ≤ literal.length
  literal_length : literal.length = blocks.size (descriptor literal)
  slm_length : slm_sizes.length = blocks.localArgs (descriptor literal)

variable {blocks : Blocks}

def Record.bytes (r : Record blocks) : List Byte :=
  (r.range.info r.old).words.flatMap le32 ++ r.literal ++ r.slm_sizes.flatMap le32

/-- A launch of a child kernel; the literal is its first argument. -/
structure Child where
  index : BitVec 32
  literal : List Byte
  slm_sizes : List (BitVec 32)
  work_dim : ℕ
  global_work_offset : Ints
  global_work_size : Ints
  local_work_size : Ints

/-- The launch that the record asks for. -/
def Record.child (r : Record blocks) : Child where
  index := index r.literal
  literal := r.literal
  slm_sizes := r.slm_sizes
  work_dim := r.range.dim + 1
  global_work_size i := if i ≤ r.range.dim then r.range.extent.globalSize i else 1
  local_work_size i := match r.range.extent with
    | .localSize _ l | .offset _ _ l => if i ≤ r.range.dim then l i else 1
    | .global _ => 1
  global_work_offset i := match r.range.extent with
    | .offset o _ _ => if i ≤ r.range.dim then o i else 0
    | _ => 0

/-! ### The device -/

/-- The buffer as the device sees it, with the reservations of the launch. -/
structure Device (blocks : Blocks) where
  /-- the word in front of the buffer -/
  header : ℤ
  /-- the bytes behind it -/
  data : ℤ → Byte
  /-- the field of a descriptor that holds the size of the SLM arguments -/
  slm_size : List Byte → ℕ
  reserved : List (ℤ × Record blocks)

inductive Work (blocks : Blocks)
  /-- the descriptor is marked and room for the record is reserved -/
  | reserve (r : Record blocks)
  /-- byte `k` of the record of reservation `n` is stored -/
  | store (n k : ℕ)

/-- The value of an `int`. -/
def int32 (v : ℤ) : ℤ := v.bmod (2 ^ 32)

/-- A reservation, or the store of a byte of a record. -/
def next (d : Device blocks) : Work blocks → Option (Device blocks)
  | .reserve r => some
      { header := int32 (d.header + r.bytes.length)
        data := d.data
        slm_size := Function.update d.slm_size (descriptor r.literal) (4 * r.slm_sizes.length)
        reserved := d.reserved ++ [(d.header, r)] }
  | .store n k =>
    (d.reserved[n]?).bind fun x => (x.2.bytes[k]?).map fun b =>
      { d with data := Function.update d.data (x.1 + k) b }

/-! ### The host -/

/-- `n` bytes of the buffer. -/
def peek (data : ℤ → Byte) (p : ℤ) (n : ℕ) : List Byte :=
  (List.range n).map fun k : ℕ => data (p + k)

/-- `n` words of the buffer. -/
def peekWords (data : ℤ → Byte) (p : ℤ) (n : ℕ) : List (BitVec 32) :=
  (List.range n).map fun j : ℕ => word (peek data (p + 4 * j) 4)

/-- The launch of one record, from what is read of it. -/
def makeChild (info : NDRangeInfo) (literal : List Byte) (slm_sizes : List (BitVec 32)) : Child :=
  let dim := ((info.type &&& 0xf0#32) >>> 4).toNat
  let type := (info.type &&& 0xf#32).toNat
  { index := index literal
    literal := literal
    slm_sizes := slm_sizes
    work_dim := dim + 1
    global_work_size := fun i => if i.val ≤ dim then info.global_work_size i else 1
    local_work_size := fun i => if i.val ≤ dim ∧ 1 < type then info.local_work_size i else 1
    global_work_offset := fun i => if i.val ≤ dim ∧ 2 < type then info.global_work_offset i else 0 }

/-- The loop over the records; each of them is at least 40 bytes long, so that as much
fuel as there are bytes is enough. -/
def parse (blocks : Blocks) (slm_size : List Byte → ℕ) (data : ℤ → Byte) : ℕ → ℤ → ℤ → List Child
  | 0, _, _ => []
  | fuel + 1, size, ptr =>
    if 0 < size then
      let info := NDRangeInfo.ofWords (peekWords data ptr 10)
      let desc := descriptor (peek data (ptr + 40) 32)
      let block_size := blocks.size desc
      let slm := slm_size desc
      let literal := peek data (ptr + 40) block_size
      let slm_sizes := peekWords data (ptr + 40 + block_size) (slm / 4)
      makeChild info literal slm_sizes ::
        parse blocks slm_size data fuel (size - 40 - block_size - slm) (ptr + 40 + block_size + slm)
    else []

/-- The kernel object and its buffer between launches. -/
structure State where
  useDeviceEnqueue : Bool
  /-- the reference count of the kernel -/
  refs : ℤ
  header : ℤ
  data : ℤ → Byte
  slm_size : List Byte → ℕ

def cl_device_enqueue_bind_buffer (s : State) : State :=
  if s.useDeviceEnqueue = false then { s with useDeviceEnqueue := true, refs := s.refs + 1 }
  else s

def cl_device_enqueue_parse_result (blocks : Blocks) (s : State) : State × List Child :=
  if s.useDeviceEnqueue = false then (s, [])
  else ({ s with refs := s.refs - 1 },
    parse blocks s.slm_size s.data s.header.toNat s.header 0)

/-- A launch: the buffer is bound for each of its sub-launches, their work items do
their work, and the result is parsed once.  The work is given in the order in which it
happens, with the reservations numbered through. -/
structure Launch (blocks : Blocks) where
  subLaunches : ℕ
  work : List (Work blocks)

def launch (l : Launch blocks) (s : State) : Option (State × List Child) :=
  let s := cl_device_enqueue_bind_buffer^[l.subLaunches] s
  (exec next (⟨s.header, s.data, s.slm_size, []⟩ : Device blocks) l.work).map fun d =>
    cl_device_enqueue_parse_result blocks
      { s with header := d.header, data := d.data, slm_size := d.slm_size }

/-! ### What a launch should do -/

/-- The records reserved by some work, in order. -/
def records (work : List (Work blocks)) : List (Record blocks) :=
  work.filterMap fun
    | .reserve r => some r
    | .store _ _ => none

/-- A launch that ran to its end: it has a sub-launch, a record is stored after its room
was reserved, and all of it is stored. -/
structure Launch.Complete (l : Launch blocks) : Prop where
  subLaunches_pos : 0 < l.subLaunches
  ordered : ∀ pre n k post, l.work = pre ++ Work.store n k :: post →
    ∃ r, (records pre)[n]? = some r ∧ k < r.bytes.length
  stored : ∀ n k r, (records l.work)[n]? = some r → k < r.bytes.length → Work.store n k ∈ l.work

/-- One child for each record and nothing else, and the references balance. -/
def Right (l : Launch blocks) (s : State) (out : State × List Child) : Prop :=
  out.2.Perm ((records l.work).map Record.child) ∧ out.1.refs = s.refs

/-- Every launch of the history is right. -/
def AllRight : List (Launch blocks) → State → Prop
  | [], _ => True
  | l :: ls, s => ∃ out, launch l s = some out ∧ Right l s out ∧ AllRight ls out.1

/-! ### Reading a record -/

/-- The bytes are in the buffer at `p`. -/
def Holds (data : ℤ → Byte) (p : ℤ) (bs : List Byte) : Prop :=
  ∀ (k : ℕ) (b : Byte), bs[k]? = some b → data (p + k) = b

theorem holds_append {data : ℤ → Byte} {p : ℤ} {bs bs' : List Byte}
    (h : Holds data p (bs ++ bs')) : Holds data p bs ∧ Holds data (p + bs.length) bs' := by
  constructor
  · intro k b hk
    refine h k b ?_
    rw [List.getElem?_append_left (List.getElem?_eq_some_iff.mp hk).1, hk]
  · intro k b hk
    have := h (bs.length + k) b (by rw [List.getElem?_append_right (by omega)]; simpa using hk)
    rw [← this]
    congr 1
    push_cast
    ring

theorem Holds.peek {data : ℤ → Byte} {p : ℤ} {bs : List Byte} (h : Holds data p bs) :
    peek data p bs.length = bs := by
  refine List.ext_getElem (by simp [DeviceEnqueue.peek]) fun k hk hk' => ?_
  simp only [DeviceEnqueue.peek, List.getElem_map, List.getElem_range]
  exact h k _ (List.getElem?_eq_getElem hk')

theorem Holds.peekWords {data : ℤ → Byte} {p : ℤ} {ws : List (BitVec 32)}
    (h : Holds data p (ws.flatMap le32)) : peekWords data p ws.length = ws := by
  induction ws generalizing p with
  | nil => rfl
  | cons w ws ih =>
    rw [List.flatMap_cons] at h
    obtain ⟨hw, hws⟩ := holds_append h
    rw [DeviceEnqueue.peekWords, List.length_cons, List.range_succ_eq_map, List.map_cons,
      List.map_map]
    have hhead : word (DeviceEnqueue.peek data (p + 4 * (0 : ℕ)) 4) = w := by
      have := hw.peek
      rw [Codec.length_le32] at this
      simpa [this] using Codec.word_le32 w
    have htail := ih hws
    rw [DeviceEnqueue.peekWords, Codec.length_le32] at htail
    rw [hhead]
    congr 1
    refine Eq.trans (List.map_congr_left fun j _ => ?_) htail
    simp only [Function.comp_apply]
    congr 2
    push_cast
    ring

theorem NDRangeInfo.ofWords_words (x : NDRangeInfo) : NDRangeInfo.ofWords x.words = x := by
  obtain ⟨t, g, l, o⟩ := x
  simp only [NDRangeInfo.ofWords, NDRangeInfo.words]
  congr 1
  · funext i
    fin_cases i <;> rfl
  · funext i
    fin_cases i <;> rfl
  · funext i
    fin_cases i <;> rfl

/-- The tags of a range, read back. -/
theorem NDRange.type_bits (r : NDRange) (old : NDRangeInfo) :
    (((r.info old).type &&& 0xf0#32) >>> 4).toNat = r.dim.val ∧
      ((r.info old).type &&& 0xf#32).toNat = r.extent.kind.toNat := by
  obtain ⟨dim, extent⟩ := r
  fin_cases dim <;> rcases extent with g | ⟨g, l⟩ | ⟨o, g, l⟩ <;>
    simp [NDRange.info, Extent.kind]

theorem makeChild_info (r : Record blocks) :
    makeChild (r.range.info r.old) r.literal r.slm_sizes = r.child := by
  obtain ⟨hdim, htype⟩ := r.range.type_bits r.old
  have hle : ∀ i : Fin 3, i.val ≤ r.range.dim.val ↔ i ≤ r.range.dim := fun i => Iff.rfl
  simp only [makeChild, Record.child, hdim, htype, hle]
  -- each field below the dimension was stored by the constructor of the range
  congr 1
  · funext i
    rcases hext : r.range.extent with g | ⟨g, l⟩ | ⟨o, g, l⟩ <;>
      by_cases hi : i ≤ r.range.dim <;> simp [NDRange.info, hext, Extent.kind, hi]
  · funext i
    by_cases hi : i ≤ r.range.dim <;> simp [NDRange.info, hi]
  · funext i
    rcases hext : r.range.extent with g | ⟨g, l⟩ | ⟨o, g, l⟩ <;>
      by_cases hi : i ≤ r.range.dim <;> simp [NDRange.info, hext, Extent.kind, hi]

theorem length_flatMap_le32 (ws : List (BitVec 32)) : (ws.flatMap le32).length = 4 * ws.length := by
  induction ws with
  | nil => rfl
  | cons w ws ih =>
    rw [List.flatMap_cons, List.length_append, ih, Codec.length_le32, List.length_cons]
    omega

theorem Record.length_bytes (r : Record blocks) :
    r.bytes.length = 40 + r.literal.length + 4 * r.slm_sizes.length := by
  rw [Record.bytes, List.length_append, List.length_append, length_flatMap_le32,
    length_flatMap_le32]
  rfl

theorem descriptor_take {literal : List Byte} :
    descriptor (literal.take 32) = descriptor literal := by
  rw [descriptor, descriptor, List.drop_take, List.take_take]
  rfl

/-- The host finds the records that are in the buffer. -/
theorem parse_records {slm_size : List Byte → ℕ} {data : ℤ → Byte} {recs : List (Record blocks)}
    (hslm : ∀ r ∈ recs, slm_size (descriptor r.literal) = 4 * r.slm_sizes.length) :
    ∀ (fuel : ℕ) (ptr : ℤ), Holds data ptr (recs.flatMap Record.bytes) →
      (recs.flatMap Record.bytes).length ≤ fuel →
      parse blocks slm_size data fuel (recs.flatMap Record.bytes).length ptr =
        recs.map Record.child := by
  induction recs with
  | nil =>
    intro fuel ptr _ _
    cases fuel <;> simp [parse]
  | cons r recs ih =>
    intro fuel ptr hdata hfuel
    rw [List.flatMap_cons] at hdata hfuel ⊢
    obtain ⟨hrec, hrest⟩ := holds_append hdata
    have hlen := r.length_bytes
    rw [List.length_append, hlen] at hfuel ⊢
    obtain ⟨fuel, rfl⟩ : ∃ m, fuel = m + 1 := ⟨fuel - 1, by omega⟩
    -- the three parts of the record
    rw [Record.bytes] at hrec
    obtain ⟨hhead, hslms⟩ := holds_append hrec
    obtain ⟨hinfo, hliteral⟩ := holds_append hhead
    have hten : ((r.range.info r.old).words.flatMap le32).length = 40 := by
      rw [length_flatMap_le32]
      rfl
    rw [List.length_append, hten] at hslms
    rw [hten] at hliteral
    have hwords : NDRangeInfo.ofWords (peekWords data ptr 10) = r.range.info r.old := by
      have := hinfo.peekWords
      rw [← NDRangeInfo.ofWords_words (r.range.info r.old)]
      exact congrArg _ this
    have hdesc : descriptor (peek data (ptr + 40) 32) = descriptor r.literal := by
      have hsplit : r.literal = r.literal.take 32 ++ r.literal.drop 32 :=
        (List.take_append_drop 32 r.literal).symm
      rw [hsplit] at hliteral
      have hfront := (holds_append hliteral).1.peek
      rw [List.length_take, min_eq_left r.literal_ge] at hfront
      have hcast : (ptr + (40 : ℕ) : ℤ) = ptr + 40 := by norm_num
      rw [hcast] at hfront
      rw [hfront, descriptor_take]
    have hsize : (blocks.size (descriptor r.literal) : ℤ) = r.literal.length := by
      rw [r.literal_length]
    have hslm_size := hslm r List.mem_cons_self
    have hlit : peek data (ptr + 40) (blocks.size (descriptor r.literal)) = r.literal := by
      have := hliteral.peek
      rw [← r.literal_length]
      exact_mod_cast this
    have hsizes : peekWords data (ptr + 40 + blocks.size (descriptor r.literal))
        (4 * r.slm_sizes.length / 4) = r.slm_sizes := by
      have := hslms.peekWords
      rw [Nat.mul_div_cancel_left _ (by norm_num), hsize]
      push_cast at this
      rwa [← add_assoc] at this
    have hpos : (0 : ℤ) < ((40 + r.literal.length + 4 * r.slm_sizes.length +
        (recs.flatMap Record.bytes).length : ℕ) : ℤ) := by
      push_cast
      omega
    rw [parse, if_pos hpos]
    simp only [hwords, hdesc, hlit, hslm_size, hsizes, makeChild_info, List.map_cons]
    congr 1
    rw [hlen] at hrest
    have hnext := ih (fun r' hr' => hslm r' (List.mem_cons_of_mem _ hr')) fuel _ hrest (by omega)
    rw [← hnext, hsize]
    congr 1
    · push_cast
      ring
    · push_cast
      ring

/-! ### The stores of a launch -/

theorem records_append (work work' : List (Work blocks)) :
    records (work ++ work') = records work ++ records work' :=
  List.filterMap_append ..

/-- The bytes of all records, in the order of the reservations. -/
def laidOut (work : List (Work blocks)) : List Byte := (records work).flatMap Record.bytes

theorem laidOut_append (work work' : List (Work blocks)) :
    laidOut (work ++ work') = laidOut work ++ laidOut work' := by
  rw [laidOut, records_append, List.flatMap_append, laidOut, laidOut]

/-- What some work has done to a fresh buffer. -/
structure Inv (work : List (Work blocks)) (d : Device blocks) : Prop where
  header : d.header = (laidOut work).length
  reserved : ∀ n r, (records work)[n]? = some r →
    d.reserved[n]? = some ((start Record.bytes (records work) n : ℤ), r)
  length : d.reserved.length = (records work).length
  slm : ∀ r ∈ records work, d.slm_size (descriptor r.literal) = 4 * r.slm_sizes.length
  stored : ∀ n k : ℕ, .store n k ∈ work →
    ∃ r b, (records work)[n]? = some r ∧ r.bytes[k]? = some b ∧
      d.data (start Record.bytes (records work) n + k) = b

/-- Records are stored after their room was reserved. -/
def Ordered (work : List (Work blocks)) : Prop :=
  ∀ pre n k post, work = pre ++ Work.store n k :: post →
    ∃ r, (records pre)[n]? = some r ∧ k < r.bytes.length

theorem Ordered.of_append {work work' : List (Work blocks)} (h : Ordered (work ++ work')) :
    Ordered work := by
  intro pre n k post heq
  refine h pre n k (post ++ work') ?_
  rw [heq, List.append_assoc, List.cons_append]

theorem int32_of_lt {n : ℕ} (h : n < 2 ^ 31) : int32 n = n := by
  rw [int32]
  apply Int.bmod_eq_of_le
  · omega
  · norm_num at h ⊢
    omega

/-- A reservation appends its record to the layout. -/
theorem Inv.reserve {work : List (Work blocks)} {d : Device blocks} {r : Record blocks}
    (h : Inv work d) (hlen : (laidOut (work ++ [Work.reserve r])).length < 2 ^ 31) :
    ∃ d', next d (.reserve r) = some d' ∧ Inv (work ++ [Work.reserve r]) d' := by
  have hrecs : records (work ++ [Work.reserve r]) = records work ++ [r] := records_append ..
  have hlaid : laidOut (work ++ [Work.reserve r]) = laidOut work ++ r.bytes := by
    rw [laidOut, hrecs, List.flatMap_append, List.flatMap_singleton, laidOut]
  refine ⟨_, rfl, ?_, ?_, ?_, ?_, ?_⟩
  · have hsum : (laidOut (work ++ [Work.reserve r])).length =
        (laidOut work).length + r.bytes.length := by
      rw [hlaid, List.length_append]
    simp only [h.header]
    rw [← int32_of_lt hlen, hsum]
    push_cast
    rfl
  · intro n r' hn
    rw [hrecs] at hn ⊢
    rcases Nat.lt_or_ge n (records work).length with hlt | hge
    · rw [List.getElem?_append_left hlt] at hn
      rw [start_append hlt.le, List.getElem?_append_left (by rw [h.length]; exact hlt)]
      exact h.reserved n r' hn
    · obtain rfl : n = (records work).length := by
        have := (List.getElem?_eq_some_iff.mp hn).1
        rw [List.length_append, List.length_singleton] at this
        omega
      rw [List.getElem?_append_right le_rfl, Nat.sub_self] at hn
      simp only [List.getElem?_cons_zero, Option.some_inj] at hn
      rw [← h.length, List.getElem?_append_right le_rfl, Nat.sub_self, h.length,
        start_append le_rfl, start_length, ← hn, h.header]
      rfl
  · rw [hrecs, List.length_append, List.length_append, h.length]
    rfl
  · intro r' hr'
    rw [hrecs, List.mem_append, List.mem_singleton] at hr'
    show Function.update d.slm_size (descriptor r.literal) _ _ = _
    by_cases hdesc : descriptor r'.literal = descriptor r.literal
    · -- the number of SLM arguments belongs to the block
      rw [hdesc, Function.update_self, r.slm_length, r'.slm_length, hdesc]
    · rw [Function.update_of_ne hdesc]
      rcases hr' with hr' | rfl
      · exact h.slm r' hr'
      · exact absurd rfl hdesc
  · intro n k hmem
    rw [List.mem_append, List.mem_singleton] at hmem
    obtain ⟨r', b, hn, hk, hdata⟩ := h.stored n k (hmem.resolve_right (by simp))
    have hlt : n < (records work).length := (List.getElem?_eq_some_iff.mp hn).1
    rw [hrecs, start_append hlt.le, List.getElem?_append_left hlt]
    exact ⟨r', b, hn, hk, hdata⟩

/-- A store puts a byte of the layout in its place; that it may have been stored before,
or is stored again later, makes no difference. -/
theorem Inv.store {work : List (Work blocks)} {d : Device blocks} {r : Record blocks} {n k : ℕ}
    (h : Inv work d) (hn : (records work)[n]? = some r) (hk : k < r.bytes.length) :
    ∃ d', next d (.store n k) = some d' ∧ Inv (work ++ [Work.store n k]) d' := by
  have hrecs : records (work ++ [Work.store n k]) = records work := by
    rw [records_append]
    exact List.append_nil _
  have hb : r.bytes[k]? = some r.bytes[k] := List.getElem?_eq_getElem hk
  refine ⟨{ d with
    data := Function.update d.data (start Record.bytes (records work) n + k) r.bytes[k] },
    ?_, ?_, ?_, ?_, ?_, ?_⟩
  · simp [next, h.reserved n r hn, hb]
  · rw [laidOut, hrecs]
    exact h.header
  · rw [hrecs]
    exact h.reserved
  · rw [hrecs]
    exact h.length
  · rw [hrecs]
    exact h.slm
  · intro n' k' hmem
    rw [hrecs]
    show ∃ r' b, _ ∧ _ ∧ Function.update d.data _ _ _ = _
    rw [List.mem_append, List.mem_singleton] at hmem
    rcases hmem with hmem | hmem
    · obtain ⟨r', b, hn', hk', hdata⟩ := h.stored n' k' hmem
      refine ⟨r', b, hn', hk', ?_⟩
      by_cases hsame : (start Record.bytes (records work) n' + k' : ℤ) =
          start Record.bytes (records work) n + k
      · -- two stores to one place store the byte that the layout has there
        have hlaid := getElem?_flatMap_start hn' hk'
        have hlaid' := getElem?_flatMap_start hn hb
        have hnat : start Record.bytes (records work) n' + k' =
            start Record.bytes (records work) n + k := by exact_mod_cast hsame
        rw [hnat, hlaid', Option.some_inj] at hlaid
        rw [hsame, Function.update_self, hlaid]
      · rw [Function.update_of_ne hsame, hdata]
    · obtain ⟨rfl, rfl⟩ : n' = n ∧ k' = k := by
        simpa using hmem
      exact ⟨r, _, hn, hb, Function.update_self ..⟩

theorem inv_nil (data : ℤ → Byte) (slm_size : List Byte → ℕ) :
    Inv [] (⟨0, data, slm_size, []⟩ : Device blocks) where
  header := rfl
  reserved n r h := by simp [records] at h
  length := rfl
  slm r h := by simp [records] at h
  stored n k h := by simp at h

/-- Every order of the work goes through and lays the records out. -/
theorem exec_inv (data : ℤ → Byte) (slm_size : List Byte → ℕ) {work : List (Work blocks)}
    (hord : Ordered work) (hlen : (laidOut work).length < 2 ^ 31) :
    ∃ d, exec next (⟨0, data, slm_size, []⟩ : Device blocks) work = some d ∧ Inv work d := by
  induction work using List.reverseRecOn with
  | nil => exact ⟨_, rfl, inv_nil data slm_size⟩
  | append_singleton work w ih =>
    have hshort : (laidOut work).length < 2 ^ 31 := by
      rw [laidOut_append, List.length_append] at hlen
      omega
    obtain ⟨d, hd, hinv⟩ := ih hord.of_append hshort
    have hnext : ∃ d', next d w = some d' ∧ Inv (work ++ [w]) d' := by
      cases w with
      | reserve r => exact hinv.reserve hlen
      | store n k =>
        obtain ⟨r, hn, hk⟩ := hord work n k [] rfl
        exact hinv.store hn hk
    obtain ⟨d', hd', hinv'⟩ := hnext
    refine ⟨d', exec_append_eq_some.mpr ⟨d, hd, ?_⟩, hinv'⟩
    rw [exec_cons_eq_some]
    exact ⟨d', hd', rfl⟩

/-- When everything is stored, the buffer holds the layout. -/
theorem stores_land {work : List (Work blocks)} {d : Device blocks} (h : Inv work d)
    (hstored : ∀ n k r, (records work)[n]? = some r → k < r.bytes.length → Work.store n k ∈ work) :
    Holds d.data 0 (laidOut work) := by
  intro i b hi
  obtain ⟨n, k, r, hn, hk, rfl⟩ := exists_start_of_lt (List.getElem?_eq_some_iff.mp hi).1
  obtain ⟨r', b', hn', hk', hdata⟩ := h.stored n k (hstored n k r hn hk)
  rw [laidOut, getElem?_flatMap_start hn' hk', Option.some_inj] at hi
  rw [zero_add, ← hi, ← hdata]
  push_cast
  rfl

/-! ### Histories of launches -/

/-- The records of the launch fit into the buffer behind its first word. -/
def Launch.Fits (l : Launch blocks) : Prop := 4 + (laidOut l.work).length ≤ 32 * 1024 * 1024

theorem bind_of_used {s : State} (h : s.useDeviceEnqueue = true) :
    cl_device_enqueue_bind_buffer s = s := by
  simp [cl_device_enqueue_bind_buffer, h]

/-- Binding the buffer for every sub-launch takes at most one reference. -/
theorem iterate_bind {n : ℕ} (hn : 0 < n) (s : State) :
    cl_device_enqueue_bind_buffer^[n] s = cl_device_enqueue_bind_buffer s := by
  have hused : (cl_device_enqueue_bind_buffer s).useDeviceEnqueue = true := by
    cases h : s.useDeviceEnqueue <;> simp [cl_device_enqueue_bind_buffer, h]
  obtain ⟨n, rfl⟩ : ∃ m, n = m + 1 := ⟨n - 1, by omega⟩
  rw [Function.iterate_succ_apply]
  exact Function.iterate_fixed (bind_of_used hused) n

/-- The first launch is right. -/
theorem launch_first {l : Launch blocks} {s : State} (hc : l.Complete) (hfits : l.Fits)
    (hused : s.useDeviceEnqueue = false) (hheader : s.header = 0) :
    ∃ out, launch l s = some out ∧ Right l s out ∧ out.1.useDeviceEnqueue = true := by
  have hlen : (laidOut l.work).length < 2 ^ 31 := by
    rw [Launch.Fits] at hfits
    omega
  obtain ⟨d, hd, hinv⟩ := exec_inv s.data s.slm_size hc.ordered hlen
  have hbind : cl_device_enqueue_bind_buffer^[l.subLaunches] s =
      { s with useDeviceEnqueue := true, refs := s.refs + 1 } := by
    rw [iterate_bind hc.subLaunches_pos, cl_device_enqueue_bind_buffer, if_pos hused]
  have hparse := parse_records (fun r hr => hinv.slm r hr) (laidOut l.work).length 0
    (stores_land hinv hc.stored) le_rfl
  have hlaunch : launch l s = some (cl_device_enqueue_parse_result blocks
      ⟨true, s.refs + 1, d.header, d.data, d.slm_size⟩) := by
    rw [launch, hbind]
    simp only [hheader, hd, Option.map_some]
  refine ⟨_, hlaunch, ?_, rfl⟩
  constructor
  · show (parse blocks d.slm_size d.data d.header.toNat d.header 0).Perm _
    rw [hinv.header, Int.toNat_natCast]
    exact List.Perm.of_eq hparse
  · show s.refs + 1 - 1 = s.refs
    ring

/-- A launch of a kernel whose buffer is set up gives back a reference that it did not
take. -/
theorem launch_again {l : Launch blocks} {s : State} (hc : l.Complete)
    (hused : s.useDeviceEnqueue = true) {out : State × List Child} (h : launch l s = some out) :
    ¬ Right l s out := by
  intro hright
  rw [launch, iterate_bind hc.subLaunches_pos, bind_of_used hused, Option.map_eq_some_iff] at h
  obtain ⟨d, -, rfl⟩ := h
  have hrefs : s.refs - 1 = s.refs := by
    have := hright.2
    rwa [cl_device_enqueue_parse_result, if_neg (by simp [hused])] at this
  omega

/-- A launch without records enqueues the children of the launch before it again. -/
theorem launch_idle {l : Launch blocks} {s : State} {out : State × List Child}
    (h : launch l s = some out) (hused : out.1.useDeviceEnqueue = true) :
    ∃ out', launch (⟨1, []⟩ : Launch blocks) out.1 = some out' ∧ out'.2 = out.2 := by
  rw [launch, Option.map_eq_some_iff] at h
  obtain ⟨d, -, rfl⟩ := h
  generalize { cl_device_enqueue_bind_buffer^[l.subLaunches] s with
    header := d.header, data := d.data, slm_size := d.slm_size } = t at hused ⊢
  cases ht : t.useDeviceEnqueue with
  | false =>
    rw [cl_device_enqueue_parse_result, if_pos ht, ht] at hused
    cases hused
  | true =>
    refine ⟨_, rfl, ?_⟩
    simp [cl_device_enqueue_parse_result, cl_device_enqueue_bind_buffer, ht]

/-- On a kernel object whose buffer is not set up yet, and whose memory comes zeroed,
a history of launches that ran to their ends and fit is right throughout exactly when
it has at most one launch. -/
theorem deviceEnqueue_once_iff (launches : List (Launch blocks)) (s : State)
    (hused : s.useDeviceEnqueue = false) (hheader : s.header = 0)
    (hcomplete : ∀ l ∈ launches, l.Complete ∧ l.Fits) :
    AllRight launches s ↔ launches.length ≤ 1 := by
  rcases launches with _ | ⟨l, ls⟩
  · simp [AllRight]
  obtain ⟨hc, hfits⟩ := hcomplete l List.mem_cons_self
  obtain ⟨out, hout, hright, hused'⟩ := launch_first hc hfits hused hheader
  rcases ls with _ | ⟨l', ls⟩
  · simp only [AllRight, and_true, List.length_singleton, le_refl, iff_true]
    exact ⟨out, hout, hright⟩
  · have hc' : l'.Complete :=
      (hcomplete l' (List.mem_cons_of_mem _ List.mem_cons_self)).1
    constructor
    · rintro ⟨out', hout', -, out'', hout'', hright'', -⟩
      rw [hout, Option.some_inj] at hout'
      subst hout'
      exact absurd hright'' (launch_again hc' hused' hout'')
    · intro hlen
      simp at hlen

/-- A launch of one work item that appends one record. -/
def Launch.one (r : Record blocks) : Launch blocks :=
  ⟨1, .reserve r :: (List.range r.bytes.length).map (.store 0)⟩

theorem records_one (r : Record blocks) : records (Launch.one r).work = [r] := by
  have hstores : ∀ ks : List ℕ, records (ks.map (Work.store 0 : ℕ → Work blocks)) = [] := by
    intro ks
    rw [records, List.filterMap_map]
    exact List.filterMap_none _
  have happend := records_append [Work.reserve r] ((List.range r.bytes.length).map (.store 0))
  rw [hstores, List.append_nil] at happend
  exact happend

theorem complete_one (r : Record blocks) : (Launch.one r).Complete where
  subLaunches_pos := Nat.one_pos
  ordered := by
    intro pre n k post heq
    rcases pre with _ | ⟨w, pre⟩
    · simp [Launch.one] at heq
    · rw [Launch.one, List.cons_append, List.cons.injEq] at heq
      obtain ⟨rfl, heq⟩ := heq
      have hmem : (Work.store n k : Work blocks) ∈ (List.range r.bytes.length).map (.store 0) := by
        rw [heq]
        simp
      obtain ⟨hk, rfl⟩ : k < r.bytes.length ∧ 0 = n := by simpa using hmem
      exact ⟨r, rfl, hk⟩
  stored := by
    intro n k r' hn hk
    rw [records_one] at hn
    rcases n with _ | n
    · obtain rfl : r = r' := by simpa using hn
      simp [Launch.one, hk]
    · simp at hn

/-- A block without variables and SLM arguments, run over eight work items. -/
def blockRecord : Record ⟨fun _ => 32, fun _ => 0⟩ where
  range := ⟨0, .global fun _ => 8⟩
  old := ⟨0, fun _ => 0, fun _ => 0, fun _ => 0⟩
  literal := List.replicate 32 0
  slm_sizes := []
  literal_ge := by simp
  literal_length := by simp
  slm_length := rfl

theorem fits_one : (Launch.one blockRecord).Fits := by
  rw [Launch.Fits, laidOut, records_one, List.flatMap_singleton, Record.length_bytes]
  simp [blockRecord]

/-- A kernel that was never launched. -/
def fresh : State := ⟨false, 1, 0, fun _ => 0, fun _ => 0⟩

theorem deviceEnqueue_once_iff_one : AllRight [Launch.one blockRecord] fresh :=
  (deviceEnqueue_once_iff [Launch.one blockRecord] fresh rfl rfl fun l hl => by
    rw [List.mem_singleton] at hl
    exact hl ▸ ⟨complete_one blockRecord, fits_one⟩).mpr le_rfl

/-- The second launch of a kernel, which appends no record, enqueues the child of the
first one again and gives back a reference that it did not take. -/
theorem second_launch_wrong :
    ¬ AllRight [Launch.one blockRecord, (⟨1, []⟩ : Launch _)] fresh ∧
      ∃ out out', launch (Launch.one blockRecord) fresh = some out ∧
        launch (⟨1, []⟩ : Launch ⟨fun _ => 32, fun _ => 0⟩) out.1 = some out' ∧
        out'.2 = [blockRecord.child] := by
  obtain ⟨out, hout, hright, hused⟩ :=
    launch_first (complete_one blockRecord) fits_one (s := fresh) rfl rfl
  obtain ⟨out', hout', hchildren⟩ := launch_idle hout hused
  have hone : out.2 = [blockRecord.child] := by
    have := hright.1
    rwa [records_one, List.map_singleton, List.perm_singleton] at this
  have hidle : (⟨1, []⟩ : Launch ⟨fun _ => 32, fun _ => 0⟩).Complete :=
    ⟨Nat.one_pos, fun pre n k post h => by simp at h, fun n k r h => by simp [records] at h⟩
  constructor
  · rintro ⟨out1, hout1, -, out2, hout2, hright2, -⟩
    rw [hout, Option.some_inj] at hout1
    subst hout1
    exact launch_again hidle hused hout2 hright2
  · exact ⟨out, out', hout, hout', hchildren.trans hone⟩

end Runtime.DeviceEnqueue
