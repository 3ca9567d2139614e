/-
Reservations in a pipe: the reserve functions, `__read_pipe_4` and `__write_pipe_4` of the device
library (`libocl/src/ocl_pipe.cl`), together with the calls of two arguments.

The functions compare an `int` with a `uint`, keep the start and the size of a reservation in 16
bits, and wrap an index back only when it meets the last slot exactly; otherwise the index goes on
beyond the capacity, and its remainder is the slot.  The state of a run also counts the packets
that the calls say were written and read.

* `step_inv` — what a call that meets the condition keeps;
* `disjoint_of_inv` — reservations share a slot only after it was read;
* **`reservations_exact`** — in every run whose calls meet the condition, the reservations are exact
  and disjoint.
-/
import Beignet.Runtime.Pipe

namespace Runtime

namespace PipeReservations

open Pipes

abbrev PIPE_INDEX_OUTRANGE : ℤ := -4
abbrev RID_MAGIC : BitVec 16 := 0xDE
abbrev DEAD_PTR : ℤ := 0xFFFFFFFF

/-! ### The code -/

/-- A `reserve_id_t`: the first three `RIDT` of a `ulong`. -/
structure Rid where
  start_pt : BitVec 16
  reserve_size : BitVec 16
  magic : BitVec 16

/-- `__gen_ocl_make_rid(0l)` -/
def noRid : Rid := ⟨0, 0, 0⟩

def is_valid_reserve_id (rid : Rid) : Bool :=
  if rid.reserve_size = 0 then false
  else if rid.magic ≠ RID_MAGIC then false
  else true

/-- The value of a `uint`. -/
def uint32 (v : ℤ) : ℤ := v % 2 ^ 32

def make_rid (start_pt num : ℤ) : Rid := ⟨BitVec.ofInt 16 start_pt, BitVec.ofInt 16 num, RID_MAGIC⟩

def reserve_read_pipe (p : Pipe) (num : BitVec 32) : Pipe × Rid :=
  let num : ℤ := num.toNat
  let data_size := p.packet_num
  let p := { p with packet_num := int32 (p.packet_num - num) }
  if uint32 data_size < num then
    ({ p with packet_num := int32 (p.packet_num + num) }, noRid)
  else
    let read_ptr := p.read_ptr
    let p := { p with read_ptr := int32 (p.read_ptr + num) }
    let p :=
      if uint32 read_ptr = uint32 (p.pack_num - num) then
        { p with read_ptr := int32 (p.read_ptr - p.pack_num) }
      else p
    (p, make_rid (read_ptr.tmod p.pack_num) num)

/-- The flag of a failure is set in a variable of the inner block only. -/
def work_group_reserve_read_pipe (p : Pipe) (num : BitVec 32) : Pipe × Rid :=
  let num : ℤ := num.toNat
  let ret0 := false
  let data_size := p.packet_num
  let p := { p with packet_num := int32 (p.packet_num - num) }
  let p :=
    if uint32 data_size < num then { p with packet_num := int32 (p.packet_num + num) } else p
  let read_ptr := p.read_ptr
  let p := { p with read_ptr := int32 (p.read_ptr + num) }
  let p :=
    if uint32 read_ptr = uint32 (p.pack_num - num) ∧ ¬ ret0 then
      { p with read_ptr := int32 (p.read_ptr - p.pack_num) }
    else p
  let rid_ptr := if ¬ ret0 then uint32 (read_ptr.tmod p.pack_num) else DEAD_PTR
  (p, if rid_ptr = DEAD_PTR then noRid else make_rid rid_ptr num)

def sub_group_reserve_read_pipe (p : Pipe) (num : BitVec 32) : Pipe × Rid := reserve_read_pipe p num

def reserve_write_pipe (p : Pipe) (num : BitVec 32) : Pipe × Rid :=
  let num : ℤ := num.toNat
  let data_size := p.packet_num
  let p := { p with packet_num := int32 (p.packet_num + num) }
  if uint32 data_size > uint32 (p.pack_num - num) then
    ({ p with packet_num := int32 (p.packet_num - num) }, noRid)
  else
    let write_ptr := p.write_ptr
    let p := { p with write_ptr := int32 (p.write_ptr + num) }
    let p :=
      if uint32 write_ptr = uint32 (p.pack_num - num) then
        { p with write_ptr := int32 (p.write_ptr - p.pack_num) }
      else p
    (p, make_rid (write_ptr.tmod p.pack_num) num)

/-- The index is raised after a failure, too. -/
def work_group_reserve_write_pipe (p : Pipe) (num : BitVec 32) : Pipe × Rid :=
  let num : ℤ := num.toNat
  let data_size := p.packet_num
  let ret0 : Bool := uint32 data_size > uint32 (p.pack_num - num)
  let p := { p with packet_num := int32 (p.packet_num + num) }
  let p := if ret0 then { p with packet_num := int32 (p.packet_num - num) } else p
  let write_ptr := p.write_ptr
  let p := { p with write_ptr := int32 (p.write_ptr + num) }
  let p :=
    if uint32 write_ptr = uint32 (p.pack_num - num) ∧ ¬ ret0 then
      { p with write_ptr := int32 (p.write_ptr - p.pack_num) }
    else p
  let rid_ptr := if ¬ ret0 then uint32 (write_ptr.tmod p.pack_num) else DEAD_PTR
  (p, if rid_ptr = DEAD_PTR then noRid else make_rid rid_ptr num)

def sub_group_reserve_write_pipe (p : Pipe) (num : BitVec 32) : Pipe × Rid :=
  reserve_write_pipe p num

def read_pipe_4 (p : Pipe) (id : Rid) (index : BitVec 32) (dst : Memory) : ℤ × Memory :=
  if id.reserve_size.toNat < index.toNat then (PIPE_INDEX_OUTRANGE, dst)
  else
    let read_ptr := int32 (uint32 (id.start_pt.toNat + index.toNat) % uint32 p.pack_num)
    let offset := int32 (read_ptr * p.pack_size)
    (0, (List.range p.pack_size.toNat).foldl (fun dst (i : ℕ) =>
      Function.update dst i (p.data (int32 (i + offset)))) dst)

/-- It returns the size of the packet. -/
def write_pipe_4 (p : Pipe) (id : Rid) (index : BitVec 32) (src : Memory) : Pipe × ℤ :=
  if id.reserve_size.toNat < index.toNat then (p, PIPE_INDEX_OUTRANGE)
  else
    let write_ptr := int32 (uint32 (id.start_pt.toNat + index.toNat) % uint32 p.pack_num)
    let offset := int32 (write_ptr * p.pack_size)
    ({ p with
      data := (List.range p.pack_size.toNat).foldl (fun data (i : ℕ) =>
        Function.update data (int32 (i + offset)) (src i)) p.data }, p.pack_size)

/-! ### Runs -/

inductive Kind where
  | plain
  | work_group
  | sub_group
  deriving DecidableEq

def reserveRead : Kind → Pipe → BitVec 32 → Pipe × Rid
  | .plain => reserve_read_pipe
  | .work_group => work_group_reserve_read_pipe
  | .sub_group => sub_group_reserve_read_pipe

def reserveWrite : Kind → Pipe → BitVec 32 → Pipe × Rid
  | .plain => reserve_write_pipe
  | .work_group => work_group_reserve_write_pipe
  | .sub_group => sub_group_reserve_write_pipe

/-- A reservation that was made: how many packets were asked for, and how many packets had been
written and read before. -/
structure Reservation where
  write : Bool
  id : Rid
  num : ℕ
  written : ℕ
  taken : ℕ

/-- The pipe, with the packets that were written and read (or reserved for it) so far. -/
structure State where
  pipe : Pipe
  written : ℕ
  taken : ℕ
  reserved : List Reservation

def fresh (packet_size max_packets : ℕ) (data : ℤ → BitVec 8) : State :=
  ⟨cl_mem_new_pipe packet_size max_packets data, 0, 0, []⟩

/-- A complete call; an indexed access names one of the reservations that were made. -/
inductive Call where
  | read (dst : Memory)
  | write (src : Memory)
  | reserve_read (kind : Kind) (num : BitVec 32)
  | reserve_write (kind : Kind) (num : BitVec 32)
  | read_4 (k : ℕ) (index : BitVec 32) (dst : Memory)
  | write_4 (k : ℕ) (index : BitVec 32) (src : Memory)

inductive Result where
  | code (ret : ℤ) (mem : Memory)
  | id (rid : Rid)

def perform (s : State) : Call → Option (State × Result)
  | .read dst =>
    let (p, ret, dst) := read_pipe_2 s.pipe dst
    some ({ s with pipe := p, taken := if ret = PIPE_SUCCESS then s.taken + 1 else s.taken },
      .code ret dst)
  | .write src =>
    let (p, ret, src) := write_pipe_2 s.pipe src
    some ({ s with pipe := p, written := if ret = PIPE_SUCCESS then s.written + 1 else s.written },
      .code ret src)
  | .reserve_read kind num =>
    let (p, rid) := reserveRead kind s.pipe num
    some (if is_valid_reserve_id rid then
        { s with
          pipe := p, taken := s.taken + num.toNat
          reserved := s.reserved ++ [⟨false, rid, num.toNat, s.written, s.taken⟩] }
      else { s with pipe := p }, .id rid)
  | .reserve_write kind num =>
    let (p, rid) := reserveWrite kind s.pipe num
    some (if is_valid_reserve_id rid then
        { s with
          pipe := p, written := s.written + num.toNat
          reserved := s.reserved ++ [⟨true, rid, num.toNat, s.written, s.taken⟩] }
      else { s with pipe := p }, .id rid)
  | .read_4 k index dst => s.reserved[k]?.map fun r =>
    let (ret, dst) := read_pipe_4 s.pipe r.id index dst
    (s, .code ret dst)
  | .write_4 k index src => s.reserved[k]?.map fun r =>
    let (p, ret) := write_pipe_4 s.pipe r.id index src
    ({ s with pipe := p }, .code ret src)

def step (s : State) (c : Call) : Option State := (perform s c).map Prod.fst

/-! ### What is asked for -/

/-- A reservation is made iff there are packets for it, and starts at the slot whose turn it is;
otherwise nothing happens. -/
structure ReserveOk (N : ℕ) (s s' : State) (num : ℕ) (available : ℤ) (first : ℕ) (rid : Rid) :
    Prop where
  valid : is_valid_reserve_id rid = true ↔ 0 < num ∧ (num : ℤ) ≤ available
  start : is_valid_reserve_id rid = true → rid.start_pt.toNat = first % N
  frame : is_valid_reserve_id rid = false → s'.pipe = s.pipe

/-- The slot of an indexed access. -/
def Reservation.slot (N : ℕ) (r : Reservation) (index : ℕ) : ℕ := (r.id.start_pt.toNat + index) % N

/-- What one call should do; a packet has `S` bytes. -/
def Ok (N S : ℕ) (s s' : State) : Call → Result → Prop
  | .reserve_read _ num, .id rid =>
    ReserveOk N s s' num.toNat ((s.written : ℤ) - s.taken) s.taken rid
  | .reserve_write _ num, .id rid =>
    ReserveOk N s s' num.toNat (N - ((s.written : ℤ) - s.taken)) s.written rid
  | .read_4 k index dst, .code ret dst' => ∀ r, s.reserved[k]? = some r → s' = s ∧
    if index.toNat < r.num then
      ret = PIPE_SUCCESS ∧ dst' = deliver (packetAt S s.pipe.data (r.slot N index.toNat)) dst
    else ret ≠ PIPE_SUCCESS ∧ dst' = dst
  | .write_4 k index src, .code ret _ => ∀ r, s.reserved[k]? = some r →
    if index.toNat < r.num then
      ret = PIPE_SUCCESS ∧
        s' = { s with pipe := { s.pipe with
          data := writtenData S s.pipe.data (r.slot N index.toNat) src } }
    else ret ≠ PIPE_SUCCESS ∧ s' = s
  | _, _ => True

/-- Two reservations to write have a slot in common only if it was read in between. -/
def Disjoint (N : ℕ) (s : State) : Prop :=
  s.reserved.Pairwise fun r r' => r.write = true → r'.write = true →
    ∀ i < r.num, ∀ j < r'.num, r.slot N i = r'.slot N j →
      ∃ k, r.taken ≤ k ∧ k < r'.taken ∧ k % N = r.slot N i

/-! ### The condition -/

/-- A request of the code's own: of no packets, of packets that are there, of fewer than 2 ^ 16 and
from a slot below, while the index is an `int`; or one that is refused as it should be. -/
def Request (kind : Kind) (num : ℕ) (available index N : ℤ) (fits : Prop) : Prop :=
  num = 0 ∨
    ((num : ℤ) ≤ available ∧ num < 2 ^ 16 ∧ index % N < 2 ^ 16 ∧ index + num < 2 ^ 31) ∨
    (available < num ∧ fits ∧ kind ≠ .work_group)

/-- The calls on which the code does what it should. -/
def Meets (s : State) : Call → Prop
  | .read _ => s.pipe.packet_num ≠ 0 ∧ s.pipe.read_ptr + 1 < 2 ^ 31
  | .write _ => s.pipe.packet_num = s.pipe.pack_num ∨ s.pipe.write_ptr + 1 < 2 ^ 31
  | .reserve_read kind num =>
    Request kind num.toNat s.pipe.packet_num s.pipe.read_ptr s.pipe.pack_num True
  | .reserve_write kind num =>
    Request kind num.toNat (s.pipe.pack_num - s.pipe.packet_num) s.pipe.write_ptr s.pipe.pack_num
      ((num.toNat : ℤ) ≤ s.pipe.pack_num)
  | .read_4 k index _ => ∀ r, s.reserved[k]? = some r → index.toNat ≠ r.num ∧
    (index.toNat < r.num →
      (((r.id.start_pt.toNat : ℤ) + index.toNat) % s.pipe.pack_num + 1) * s.pipe.pack_size ≤ 2 ^ 31)
  | .write_4 k index _ => ∀ r, s.reserved[k]? = some r → r.num < index.toNat

/-! ### Arithmetic -/

theorem uint32_eq {v : ℤ} (hlo : 0 ≤ v) (hhi : v < 2 ^ 32) : uint32 v = v :=
  Int.emod_eq_of_lt hlo hhi

theorem int32_add_sub (a b : ℤ) : int32 (int32 (a + b) - b) = int32 a := by
  have h : int32 (int32 (a + b) - b) = int32 (a + b - b) := by
    rw [int32, int32, Int.bmod_sub_bmod]
    rfl
  rw [h, add_sub_cancel_right]

theorem int32_sub_add (a b : ℤ) : int32 (int32 (a - b) + b) = int32 a := by
  have h : int32 (int32 (a - b) + b) = int32 (a - b + b) := by
    rw [int32, int32, Int.bmod_add_bmod]
    rfl
  rw [h, sub_add_cancel]

/-- An index that has passed `n` packets: its remainder is the slot. -/
def Ring (N : ℕ) (ptr : ℤ) (n : ℕ) : Prop :=
  ∃ i : ℕ, ptr = i ∧ i < 2 ^ 31 ∧ i ≠ N ∧ i % N = n % N

/-- What a reservation does to an index. -/
def advance (N ptr num : ℤ) : ℤ :=
  if uint32 ptr = uint32 (N - num) then int32 (int32 (ptr + num) - N) else int32 (ptr + num)

section Ring

variable {N n num : ℕ} {ptr : ℤ}

theorem Ring.slot (h : Ring N ptr n) : ptr.tmod N = ((n % N : ℕ) : ℤ) := by
  obtain ⟨i, rfl, -, -, hi⟩ := h
  rw [← Int.ofNat_tmod, ← hi]

/-- Wrapped or not, the remainder is right. -/
theorem Ring.advance (h : Ring N ptr n) (num : ℕ) (hpos : 0 < N) (hN : N < 2 ^ 31) (hnum : num ≤ N)
    (hfits : ptr + num < 2 ^ 31) : Ring N (advance N ptr num) (n + num) := by
  obtain ⟨i, rfl, hi, hne, hmod⟩ := h
  have hslot : (i + num) % N = (n + num) % N := by
    rw [Nat.add_mod, hmod, ← Nat.add_mod]
  have hsub : (N : ℤ) - num = ((N - num : ℕ) : ℤ) := by omega
  have hsum : int32 ((i : ℤ) + num) = ((i + num : ℕ) : ℤ) := by
    rw [int32_eq (by omega) (by omega), Nat.cast_add]
  rw [PipeReservations.advance, uint32_eq (by omega) (by omega), hsub,
    uint32_eq (by omega) (by omega), hsum]
  split
  · next heq =>
    have hlast : i + num = N := by omega
    refine ⟨0, ?_, by omega, by omega, ?_⟩
    · rw [hlast, sub_self]
      rfl
    · rw [← hslot, hlast, Nat.mod_self, Nat.zero_mod]
  · next hne' => exact ⟨i + num, rfl, by omega, by omega, hslot⟩

/-- The calls of two arguments wrap an index in the same way. -/
theorem Ring.next (h : Ring N ptr n) (hpos : 0 < N) (hN : N < 2 ^ 31) (hfits : ptr + 1 < 2 ^ 31) :
    Ring N (if ptr = int32 (N - 1) then int32 (int32 (ptr + 1) - N) else int32 (ptr + 1))
      (n + 1) := by
  have hadvance := h.advance 1 hpos hN hpos hfits
  obtain ⟨i, rfl, hi, -, -⟩ := h
  have hsub : (N : ℤ) - 1 = ((N - 1 : ℕ) : ℤ) := by omega
  have hiff : uint32 (i : ℤ) = uint32 ((N : ℤ) - 1) ↔ (i : ℤ) = int32 ((N : ℤ) - 1) := by
    rw [uint32_eq (by omega) (by omega), hsub, uint32_eq (by omega) (by omega),
      int32_eq (by omega) (by omega)]
  rw [PipeReservations.advance, Nat.cast_one, if_congr hiff rfl rfl] at hadvance
  exact hadvance

end Ring

/-! ### The reserve functions -/

section Reserve

variable {p : Pipe} {num : BitVec 32} {kind : Kind}

theorem reserveRead_granted (kind : Kind) (num : BitVec 32)
    (h : ¬ uint32 p.packet_num < (num.toNat : ℤ))
    (hlo : 0 ≤ p.read_ptr.tmod p.pack_num) (hhi : p.read_ptr.tmod p.pack_num < 2 ^ 31) :
    reserveRead kind p num =
      ({ p with
          packet_num := int32 (p.packet_num - num.toNat)
          read_ptr := advance p.pack_num p.read_ptr num.toNat },
        make_rid (p.read_ptr.tmod p.pack_num) num.toNat) := by
  have hplain : reserve_read_pipe p num =
      ({ p with
          packet_num := int32 (p.packet_num - num.toNat)
          read_ptr := advance p.pack_num p.read_ptr num.toNat },
        make_rid (p.read_ptr.tmod p.pack_num) num.toNat) := by
    simp only [reserve_read_pipe, advance, if_neg h]
    split
    · rfl
    · rfl
  cases kind with
  | plain => exact hplain
  | sub_group => exact hplain
  | work_group =>
    have hdead : p.read_ptr.tmod p.pack_num ≠ DEAD_PTR := by
      rw [DEAD_PTR]
      omega
    simp only [reserveRead, work_group_reserve_read_pipe, advance, if_neg h, Bool.false_eq_true,
      not_false_eq_true, and_true, if_true]
    split
    · simp only [uint32_eq hlo (show _ < 2 ^ 32 by omega), if_neg hdead]
    · simp only [uint32_eq hlo (show _ < 2 ^ 32 by omega), if_neg hdead]

theorem reserveRead_refused (hkind : kind ≠ .work_group)
    (h : uint32 p.packet_num < (num.toNat : ℤ)) :
    reserveRead kind p num =
      ({ p with packet_num := int32 (int32 (p.packet_num - num.toNat) + num.toNat) }, noRid) := by
  cases kind with
  | plain => simp only [reserveRead, reserve_read_pipe, if_pos h]
  | sub_group =>
    simp only [reserveRead, sub_group_reserve_read_pipe, reserve_read_pipe, if_pos h]
  | work_group => exact absurd rfl hkind

theorem reserveWrite_granted (kind : Kind) (num : BitVec 32)
    (h : ¬ uint32 p.packet_num > uint32 (p.pack_num - num.toNat))
    (hlo : 0 ≤ p.write_ptr.tmod p.pack_num) (hhi : p.write_ptr.tmod p.pack_num < 2 ^ 31) :
    reserveWrite kind p num =
      ({ p with
          packet_num := int32 (p.packet_num + num.toNat)
          write_ptr := advance p.pack_num p.write_ptr num.toNat },
        make_rid (p.write_ptr.tmod p.pack_num) num.toNat) := by
  have hplain : reserve_write_pipe p num =
      ({ p with
          packet_num := int32 (p.packet_num + num.toNat)
          write_ptr := advance p.pack_num p.write_ptr num.toNat },
        make_rid (p.write_ptr.tmod p.pack_num) num.toNat) := by
    simp only [reserve_write_pipe, advance, if_neg h]
    split
    · rfl
    · rfl
  cases kind with
  | plain => exact hplain
  | sub_group => exact hplain
  | work_group =>
    have hdead : p.write_ptr.tmod p.pack_num ≠ DEAD_PTR := by
      rw [DEAD_PTR]
      omega
    simp only [reserveWrite, work_group_reserve_write_pipe, advance, decide_eq_false h,
      Bool.false_eq_true, not_false_eq_true, and_true, if_true, if_false]
    split
    · simp only [uint32_eq hlo (show _ < 2 ^ 32 by omega), if_neg hdead]
    · simp only [uint32_eq hlo (show _ < 2 ^ 32 by omega), if_neg hdead]

theorem reserveWrite_refused (hkind : kind ≠ .work_group)
    (h : uint32 p.packet_num > uint32 (p.pack_num - num.toNat)) :
    reserveWrite kind p num =
      ({ p with packet_num := int32 (int32 (p.packet_num + num.toNat) - num.toNat) }, noRid) := by
  cases kind with
  | plain => simp only [reserveWrite, reserve_write_pipe, if_pos h]
  | sub_group =>
    simp only [reserveWrite, sub_group_reserve_write_pipe, reserve_write_pipe, if_pos h]
  | work_group => exact absurd rfl hkind

end Reserve

/-! ### The invariant -/

/-- The header is what the calls say, and the reservations are in the order of their packets. -/
structure Inv (N S : ℕ) (s : State) : Prop where
  pack_num : s.pipe.pack_num = N
  pack_size : s.pipe.pack_size = S
  taken_le : s.taken ≤ s.written
  written_le : s.written ≤ s.taken + N
  packet_num : s.pipe.packet_num = (s.written : ℤ) - s.taken
  write_ptr : Ring N s.pipe.write_ptr s.written
  read_ptr : Ring N s.pipe.read_ptr s.taken
  ids : ∀ r ∈ s.reserved, r.id.reserve_size.toNat = r.num ∧ r.num < 2 ^ 16 ∧
    r.id.start_pt.toNat = (if r.write then r.written else r.taken) % N
  bounds : ∀ r ∈ s.reserved, r.write = true →
    r.taken ≤ r.written ∧ r.written + r.num ≤ r.taken + N ∧ r.written + r.num ≤ s.written
  order : s.reserved.Pairwise fun r r' => r.write = true → r'.write = true →
    r.written + r.num ≤ r'.written

section Ids

variable {num : ℕ}

theorem valid_make_rid (start_pt : ℤ) (hnum : num < 2 ^ 16) :
    is_valid_reserve_id (make_rid start_pt num) = true ↔ 0 < num := by
  have hsize : (BitVec.ofInt 16 (num : ℤ)).toNat = num := by
    rw [BitVec.ofInt_natCast, BitVec.toNat_ofNat]
    exact Nat.mod_eq_of_lt hnum
  have hzero : BitVec.ofInt 16 (num : ℤ) = 0 ↔ num = 0 := by
    rw [← BitVec.toNat_inj, hsize]
    rfl
  rw [is_valid_reserve_id, make_rid]
  by_cases h : num = 0
  · simp [h]
  · have hne : ¬ BitVec.ofInt 16 (num : ℤ) = 0 := fun heq => h (hzero.mp heq)
    simp only [if_neg hne]
    simp
    omega

theorem size_make_rid (start_pt : ℤ) (hnum : num < 2 ^ 16) :
    (make_rid start_pt num).reserve_size.toNat = num := by
  rw [make_rid, BitVec.ofInt_natCast, BitVec.toNat_ofNat]
  exact Nat.mod_eq_of_lt hnum

theorem start_make_rid {start_pt : ℕ} (num : ℤ) (h : start_pt < 2 ^ 16) :
    (make_rid start_pt num).start_pt.toNat = start_pt := by
  rw [make_rid, BitVec.ofInt_natCast, BitVec.toNat_ofNat]
  exact Nat.mod_eq_of_lt h

end Ids

theorem Ring.emod {N n : ℕ} {ptr : ℤ} (h : Ring N ptr n) : ptr % N = ((n % N : ℕ) : ℤ) := by
  obtain ⟨i, rfl, -, -, hi⟩ := h
  rw [← hi]
  rfl

/-- A request of no packets. -/
theorem Ring.advance_zero {N n : ℕ} {ptr : ℤ} (h : Ring N ptr n) (hN : N < 2 ^ 31) :
    PipeReservations.advance N ptr 0 = ptr := by
  obtain ⟨i, rfl, hi, hne, -⟩ := h
  rw [PipeReservations.advance, sub_zero, uint32_eq (by omega) (by omega),
    uint32_eq (by omega) (by omega), if_neg (by omega), add_zero, int32_eq (by omega) (by omega)]

section Calls

variable {N S : ℕ} {s : State} {kind : Kind} {num : BitVec 32}

/-- A call that leaves the pipe as it was. -/
theorem int32_packet_num (hN : N < 2 ^ 31) (hI : Inv N S s) :
    int32 s.pipe.packet_num = s.pipe.packet_num := by
  have hle := hI.taken_le
  have hfull := hI.written_le
  rw [hI.packet_num]
  exact int32_eq (by omega) (by omega)

/-- A reservation to read either does nothing, or takes the next packets. -/
theorem reserveRead_cases (hpos : 0 < N) (hN : N < 2 ^ 31) (hI : Inv N S s)
    (h : Request kind num.toNat s.pipe.packet_num s.pipe.read_ptr s.pipe.pack_num True) :
    (∃ rid, reserveRead kind s.pipe num = (s.pipe, rid) ∧ is_valid_reserve_id rid = false ∧
        ¬ (0 < num.toNat ∧ (num.toNat : ℤ) ≤ (s.written : ℤ) - s.taken)) ∨
      0 < num.toNat ∧ (num.toNat : ℤ) ≤ (s.written : ℤ) - s.taken ∧ num.toNat < 2 ^ 16 ∧
        ∃ packet_num read_ptr rid, reserveRead kind s.pipe num =
            ({ s.pipe with packet_num := packet_num, read_ptr := read_ptr }, rid) ∧
          packet_num = (s.written : ℤ) - (s.taken + num.toNat : ℕ) ∧
          Ring N read_ptr (s.taken + num.toNat) ∧ is_valid_reserve_id rid = true ∧
          rid.start_pt.toNat = s.taken % N ∧ rid.reserve_size.toNat = num.toNat := by
  have hle := hI.taken_le
  have hfull := hI.written_le
  have hcount := hI.packet_num
  have hslot := hI.read_ptr.slot
  have hlt : s.taken % N < N := Nat.mod_lt _ hpos
  have huint : uint32 s.pipe.packet_num = s.pipe.packet_num := uint32_eq (by omega) (by omega)
  rw [← hI.pack_num] at hslot
  have hgranted := reserveRead_granted (p := s.pipe) kind num
  rw [huint, hslot] at hgranted
  rcases Nat.eq_zero_or_pos num.toNat with hzero | hposn
  · -- no packet is asked for
    have heq := hgranted (by omega) (by omega) (by omega)
    rw [hzero, Nat.cast_zero, sub_zero, hI.pack_num, hI.read_ptr.advance_zero hN,
      int32_packet_num hN hI, ← hI.pack_num] at heq
    exact .inl ⟨_, heq, rfl, fun h => by omega⟩
  · rcases h with hzero | ⟨havail, hnum, hstart, hfits⟩ | ⟨hmore, -, hkind⟩
    · omega
    · have heq := hgranted (by omega) (by omega) (by omega)
      have hring := hI.read_ptr.advance num.toNat hpos hN (by omega) hfits
      rw [← hI.pack_num] at hring
      refine .inr ⟨hposn, by omega, hnum, _, _, _, heq, ?_, hring, ?_, ?_, ?_⟩
      · rw [hcount, int32_eq (by omega) (by omega)]
        push_cast
        ring
      · exact (valid_make_rid _ hnum).mpr hposn
      · refine start_make_rid _ ?_
        rw [hI.pack_num, hI.read_ptr.emod] at hstart
        exact_mod_cast hstart
      · exact size_make_rid _ hnum
    · refine .inl ⟨noRid, ?_, rfl, fun h => by omega⟩
      rw [reserveRead_refused hkind (by rw [huint]; exact hmore), int32_sub_add,
        int32_packet_num hN hI]

/-- A reservation to write either does nothing, or fills the next slots. -/
theorem reserveWrite_cases (hpos : 0 < N) (hN : N < 2 ^ 31) (hI : Inv N S s)
    (h : Request kind num.toNat (s.pipe.pack_num - s.pipe.packet_num) s.pipe.write_ptr
      s.pipe.pack_num ((num.toNat : ℤ) ≤ s.pipe.pack_num)) :
    (∃ rid, reserveWrite kind s.pipe num = (s.pipe, rid) ∧ is_valid_reserve_id rid = false ∧
        ¬ (0 < num.toNat ∧ (num.toNat : ℤ) ≤ N - ((s.written : ℤ) - s.taken))) ∨
      0 < num.toNat ∧ (num.toNat : ℤ) ≤ N - ((s.written : ℤ) - s.taken) ∧ num.toNat < 2 ^ 16 ∧
        ∃ packet_num write_ptr rid, reserveWrite kind s.pipe num =
            ({ s.pipe with packet_num := packet_num, write_ptr := write_ptr }, rid) ∧
          packet_num = ((s.written + num.toNat : ℕ) : ℤ) - s.taken ∧
          Ring N write_ptr (s.written + num.toNat) ∧ is_valid_reserve_id rid = true ∧
          rid.start_pt.toNat = s.written % N ∧ rid.reserve_size.toNat = num.toNat := by
  have hle := hI.taken_le
  have hfull := hI.written_le
  have hcount := hI.packet_num
  have hslot := hI.write_ptr.slot
  have hpack := hI.pack_num
  have hlt : s.written % N < N := Nat.mod_lt _ hpos
  have huint : uint32 s.pipe.packet_num = s.pipe.packet_num := uint32_eq (by omega) (by omega)
  have hroom : (num.toNat : ℤ) ≤ N →
      uint32 (s.pipe.pack_num - num.toNat) = s.pipe.pack_num - num.toNat :=
    fun hnum => uint32_eq (by omega) (by omega)
  rw [← hpack] at hslot
  have hgranted := reserveWrite_granted (p := s.pipe) kind num
  rw [huint, hslot] at hgranted
  rcases Nat.eq_zero_or_pos num.toNat with hzero | hposn
  · -- no packet is asked for
    have heq := hgranted (by rw [hroom (by omega)]; omega) (by omega) (by omega)
    rw [hzero, Nat.cast_zero, add_zero, hpack, hI.write_ptr.advance_zero hN,
      int32_packet_num hN hI, ← hpack] at heq
    exact .inl ⟨_, heq, rfl, fun h => by omega⟩
  · rcases h with hzero | ⟨havail, hnum, hstart, hfits⟩ | ⟨hmore, hN', hkind⟩
    · omega
    · have heq := hgranted (by rw [hroom (by omega)]; omega) (by omega) (by omega)
      have hring := hI.write_ptr.advance num.toNat hpos hN (by omega) hfits
      rw [← hpack] at hring
      refine .inr ⟨hposn, by omega, hnum, _, _, _, heq, ?_, hring, ?_, ?_, ?_⟩
      · rw [hcount, int32_eq (by omega) (by omega)]
        push_cast
        ring
      · exact (valid_make_rid _ hnum).mpr hposn
      · refine start_make_rid _ ?_
        rw [hpack, hI.write_ptr.emod] at hstart
        exact_mod_cast hstart
      · exact size_make_rid _ hnum
    · refine .inl ⟨noRid, ?_, rfl, fun h => by omega⟩
      rw [reserveWrite_refused hkind (by rw [huint, hroom (by omega)]; omega), int32_add_sub,
        int32_packet_num hN hI]

/-- A read takes the next packet. -/
theorem read_pipe_2_cases (hpos : 0 < N) (hN : N < 2 ^ 31) (hI : Inv N S s) (dst : Memory)
    (h : s.pipe.packet_num ≠ 0 ∧ s.pipe.read_ptr + 1 < 2 ^ 31) :
    s.taken < s.written ∧ ∃ packet_num read_ptr dst', read_pipe_2 s.pipe dst =
        ({ s.pipe with packet_num := packet_num, read_ptr := read_ptr }, PIPE_SUCCESS, dst') ∧
      packet_num = (s.written : ℤ) - (s.taken + 1 : ℕ) ∧ Ring N read_ptr (s.taken + 1) := by
  have hle := hI.taken_le
  have hfull := hI.written_le
  have hcount := hI.packet_num
  have hnext := hI.read_ptr.next hpos hN h.2
  have hsome : ¬ s.pipe.packet_num < 0 := by omega
  have heq : read_pipe_2 s.pipe dst =
      ({ s.pipe with
          packet_num := int32 (s.pipe.packet_num - 1)
          read_ptr := if s.pipe.read_ptr = int32 (N - 1) then
              int32 (int32 (s.pipe.read_ptr + 1) - N)
            else int32 (s.pipe.read_ptr + 1) }, PIPE_SUCCESS,
        (List.range s.pipe.pack_size.toNat).foldl (fun dst (i : ℕ) => Function.update dst i
          (s.pipe.data (int32 (i + int32 (s.pipe.read_ptr.tmod N * s.pipe.pack_size))))) dst) := by
    simp only [read_pipe_2, if_neg hsome, hI.pack_num]
    split
    · rfl
    · rfl
  refine ⟨by omega, _, _, _, heq, ?_, hnext⟩
  rw [hcount, int32_eq (by omega) (by omega)]
  push_cast
  ring

/-- A write fills the next slot, if there is one. -/
theorem write_pipe_2_cases (hpos : 0 < N) (hN : N < 2 ^ 31) (hI : Inv N S s) (src : Memory)
    (h : s.pipe.packet_num = s.pipe.pack_num ∨ s.pipe.write_ptr + 1 < 2 ^ 31) :
    write_pipe_2 s.pipe src = (s.pipe, PIPE_FULL, src) ∨
      s.written < s.taken + N ∧ ∃ packet_num write_ptr data, write_pipe_2 s.pipe src =
          ({ s.pipe with packet_num := packet_num, write_ptr := write_ptr, data := data },
            PIPE_SUCCESS, src) ∧
        packet_num = ((s.written + 1 : ℕ) : ℤ) - s.taken ∧ Ring N write_ptr (s.written + 1) := by
  have hle := hI.taken_le
  have hcount := hI.packet_num
  have hpack := hI.pack_num
  by_cases hroom : s.pipe.packet_num ≥ s.pipe.pack_num
  · refine .inl ?_
    simp only [write_pipe_2, if_pos hroom]
    rw [int32_add_sub, int32_packet_num hN hI]
  · have hnext := hI.write_ptr.next hpos hN (by omega)
    have heq : write_pipe_2 s.pipe src =
        ({ s.pipe with
            packet_num := int32 (s.pipe.packet_num + 1)
            write_ptr := if s.pipe.write_ptr = int32 (N - 1) then
                int32 (int32 (s.pipe.write_ptr + 1) - N)
              else int32 (s.pipe.write_ptr + 1)
            data := (List.range s.pipe.pack_size.toNat).foldl (fun data (i : ℕ) =>
              Function.update data
                (int32 (i + int32 (s.pipe.write_ptr.tmod N * s.pipe.pack_size))) (src i))
              s.pipe.data }, PIPE_SUCCESS, src) := by
      rw [hpack] at hroom
      simp only [write_pipe_2, hpack, if_neg hroom]
      split
      · rfl
      · rfl
    refine .inr ⟨by omega, _, _, _, heq, ?_, hnext⟩
    rw [hcount, int32_eq (by omega) (by omega)]
    push_cast
    ring

end Calls

/-! ### Calls -/

section Steps

variable {N S : ℕ} {s s' : State} {r : Result}

/-- The slot of an access is below the capacity, and its bytes are in the pipe. -/
theorem read_pipe_4_ok (hpos : 0 < N) (hN : N < 2 ^ 31) (hS : S < 2 ^ 31) (hI : Inv N S s)
    {res : Reservation} (hres : res ∈ s.reserved) {index : BitVec 32} (dst : Memory)
    (hne : index.toNat ≠ res.num)
    (hfits : index.toNat < res.num → (((res.id.start_pt.toNat : ℤ) + index.toNat) %
      s.pipe.pack_num + 1) * s.pipe.pack_size ≤ 2 ^ 31) :
    if index.toNat < res.num then read_pipe_4 s.pipe res.id index dst =
      (PIPE_SUCCESS, deliver (packetAt S s.pipe.data (res.slot N index.toNat)) dst)
    else read_pipe_4 s.pipe res.id index dst = (PIPE_INDEX_OUTRANGE, dst) := by
  obtain ⟨hsize, hnum, -⟩ := hI.ids res hres
  have hstart := res.id.start_pt.isLt
  split
  · next hlt =>
    have hslot : res.slot N index.toNat < N := Nat.mod_lt _ hpos
    have hfits := hfits hlt
    rw [hI.pack_num, hI.pack_size] at hfits
    have hmod :
        (((res.id.start_pt.toNat : ℤ) + index.toNat) % N) = (res.slot N index.toNat : ℤ) := by
      rw [Reservation.slot]
      push_cast
      rfl
    rw [hmod] at hfits
    have hwhole : Fits (res.slot N index.toNat + 1) S :=
      ⟨Nat.succ_pos _, by omega, hS, by exact_mod_cast hfits⟩
    have hptr : int32 (uint32 (res.id.start_pt.toNat + index.toNat) % uint32 s.pipe.pack_num) =
        (res.slot N index.toNat : ℤ) := by
      rw [hI.pack_num, uint32_eq (by omega) (by omega), uint32_eq (by omega) (by omega), hmod,
        int32_eq (by omega) (by omega)]
    rw [read_pipe_4, if_neg (by omega)]
    simp only [hptr, hI.pack_size, Int.toNat_natCast]
    rw [read_loop_eq hwhole (Nat.lt_succ_self _)]
  · rw [read_pipe_4, if_pos (by omega)]

/-- Packets are read. -/
theorem Inv.take (hI : Inv N S s) {n : ℕ} {packet_num read_ptr : ℤ}
    (hn : s.taken + n ≤ s.written) (hcount : packet_num = (s.written : ℤ) - (s.taken + n : ℕ))
    (hring : Ring N read_ptr (s.taken + n)) :
    Inv N S { s with
      pipe := { s.pipe with packet_num := packet_num, read_ptr := read_ptr }
      taken := s.taken + n } := by
  have hfull : s.written ≤ s.taken + n + N := by
    have := hI.written_le
    omega
  exact ⟨hI.pack_num, hI.pack_size, hn, hfull, hcount, hI.write_ptr, hring, hI.ids, hI.bounds,
    hI.order⟩

/-- Packets are written. -/
theorem Inv.put (hI : Inv N S s) {n : ℕ} {packet_num write_ptr : ℤ} (data : ℤ → BitVec 8)
    (hn : s.written + n ≤ s.taken + N) (hcount : packet_num = ((s.written + n : ℕ) : ℤ) - s.taken)
    (hring : Ring N write_ptr (s.written + n)) :
    Inv N S { s with
      pipe := { s.pipe with packet_num := packet_num, write_ptr := write_ptr, data := data }
      written := s.written + n } := by
  have hle : s.taken ≤ s.written + n := by
    have := hI.taken_le
    omega
  refine ⟨hI.pack_num, hI.pack_size, hle, hn, hcount, hring, hI.read_ptr, hI.ids,
    fun r hr hw => ?_, hI.order⟩
  obtain ⟨h1, h2, h3⟩ := hI.bounds r hr hw
  exact ⟨h1, h2, h3.trans (Nat.le_add_right _ _)⟩

/-- A reservation is recorded. -/
theorem Inv.record (hI : Inv N S s) {r : Reservation}
    (hid : r.id.reserve_size.toNat = r.num ∧ r.num < 2 ^ 16 ∧
      r.id.start_pt.toNat = (if r.write then r.written else r.taken) % N)
    (hbounds : r.write = true →
      r.taken ≤ r.written ∧ r.written + r.num ≤ r.taken + N ∧ r.written + r.num ≤ s.written)
    (horder : ∀ r' ∈ s.reserved, r'.write = true → r.write = true →
      r'.written + r'.num ≤ r.written) :
    Inv N S { s with reserved := s.reserved ++ [r] } := by
  refine ⟨hI.pack_num, hI.pack_size, hI.taken_le, hI.written_le, hI.packet_num, hI.write_ptr,
    hI.read_ptr, fun r' hr' => ?_, fun r' hr' => ?_, ?_⟩
  · rcases List.mem_append.mp hr' with hr' | hr'
    · exact hI.ids r' hr'
    · rw [List.mem_singleton.mp hr']
      exact hid
  · rcases List.mem_append.mp hr' with hr' | hr'
    · exact hI.bounds r' hr'
    · rw [List.mem_singleton.mp hr']
      exact hbounds
  · refine List.pairwise_append.mpr ⟨hI.order, List.pairwise_singleton _ _, fun r' hr' x hx => ?_⟩
    rw [List.mem_singleton.mp hx]
    exact horder r' hr'

/-- A call that meets the condition does what it should, and keeps the invariant. -/
theorem perform_ok (hpos : 0 < N) (hN : N < 2 ^ 31) (hS : S < 2 ^ 31) (hI : Inv N S s) {c : Call}
    (hM : Meets s c) (h : perform s c = some (s', r)) : Ok N S s s' c r ∧ Inv N S s' := by
  have hle := hI.taken_le
  cases c with
  | read dst =>
    obtain ⟨hlt, packet_num, read_ptr, dst', heq, hcount, hring⟩ :=
      read_pipe_2_cases hpos hN hI dst hM
    simp only [perform, heq, if_true, Option.some.injEq, Prod.mk.injEq] at h
    obtain ⟨rfl, rfl⟩ := h
    exact ⟨trivial, hI.take hlt hcount hring⟩
  | write src =>
    rcases write_pipe_2_cases hpos hN hI src hM with
      heq | ⟨hlt, packet_num, write_ptr, data, heq, hcount, hring⟩
    · simp only [perform, heq, Option.some.injEq, Prod.mk.injEq] at h
      obtain ⟨rfl, rfl⟩ := h
      exact ⟨trivial, hI⟩
    · simp only [perform, heq, if_true, Option.some.injEq, Prod.mk.injEq] at h
      obtain ⟨rfl, rfl⟩ := h
      exact ⟨trivial, hI.put data hlt hcount hring⟩
  | reserve_read kind num =>
    rcases reserveRead_cases hpos hN hI hM with ⟨rid, heq, hvalid, hnot⟩ |
      ⟨hposn, havail, hnum, packet_num, read_ptr, rid, heq, hcount, hring, hvalid, hstart, hsize⟩
    · simp only [perform, heq, hvalid, Bool.false_eq_true, if_false, Option.some.injEq,
        Prod.mk.injEq] at h
      obtain ⟨rfl, rfl⟩ := h
      refine ⟨⟨iff_of_false ?_ hnot, fun h => absurd (hvalid.symm.trans h) Bool.false_ne_true,
        fun _ => rfl⟩, hI⟩
      rw [hvalid]
      exact Bool.false_ne_true
    · simp only [perform, heq, hvalid, if_true, Option.some.injEq, Prod.mk.injEq] at h
      obtain ⟨rfl, rfl⟩ := h
      refine ⟨⟨iff_of_true hvalid ⟨hposn, havail⟩, fun _ => hstart,
        fun h => absurd (h.symm.trans hvalid) Bool.false_ne_true⟩, ?_⟩
      have htake := hI.take (n := num.toNat) (by omega) hcount hring
      exact htake.record (r := ⟨false, rid, num.toNat, s.written, s.taken⟩)
        ⟨hsize, hnum, hstart⟩ (fun h => absurd h Bool.false_ne_true)
        fun _ _ _ h => absurd h Bool.false_ne_true
  | reserve_write kind num =>
    rcases reserveWrite_cases hpos hN hI hM with ⟨rid, heq, hvalid, hnot⟩ |
      ⟨hposn, havail, hnum, packet_num, write_ptr, rid, heq, hcount, hring, hvalid, hstart, hsize⟩
    · simp only [perform, heq, hvalid, Bool.false_eq_true, if_false, Option.some.injEq,
        Prod.mk.injEq] at h
      obtain ⟨rfl, rfl⟩ := h
      refine ⟨⟨iff_of_false ?_ hnot, fun h => absurd (hvalid.symm.trans h) Bool.false_ne_true,
        fun _ => rfl⟩, hI⟩
      rw [hvalid]
      exact Bool.false_ne_true
    · simp only [perform, heq, hvalid, if_true, Option.some.injEq, Prod.mk.injEq] at h
      obtain ⟨rfl, rfl⟩ := h
      refine ⟨⟨iff_of_true hvalid ⟨hposn, havail⟩, fun _ => hstart,
        fun h => absurd (h.symm.trans hvalid) Bool.false_ne_true⟩, ?_⟩
      have hroom : s.written + num.toNat ≤ s.taken + N := by omega
      have hput := hI.put s.pipe.data hroom hcount hring
      exact hput.record (r := ⟨true, rid, num.toNat, s.written, s.taken⟩)
        ⟨hsize, hnum, hstart⟩ (fun _ => ⟨hle, hroom, le_rfl⟩)
        fun r' hr' hw _ => (hI.bounds r' hr' hw).2.2
  | read_4 k index dst =>
    simp only [perform] at h
    cases hres : s.reserved[k]? with
    | none =>
      rw [hres] at h
      cases h
    | some res =>
      obtain ⟨hne, hfits⟩ := hM res hres
      have hok := read_pipe_4_ok hpos hN hS hI (List.mem_of_getElem? hres) dst hne hfits
      rw [hres] at h
      simp only [Option.map_some, Option.some.injEq, Prod.mk.injEq] at h
      obtain ⟨rfl, rfl⟩ := h
      refine ⟨fun res' hres' => ⟨rfl, ?_⟩, hI⟩
      obtain rfl := Option.some.inj (hres.symm.trans hres')
      split at hok
      · next hlt =>
        rw [if_pos hlt, hok]
        exact ⟨rfl, rfl⟩
      · next hge =>
        rw [if_neg hge, hok]
        exact ⟨(by decide : PIPE_INDEX_OUTRANGE ≠ PIPE_SUCCESS), rfl⟩
  | write_4 k index src =>
    simp only [perform] at h
    cases hres : s.reserved[k]? with
    | none =>
      rw [hres] at h
      cases h
    | some res =>
      have hlt := hM res hres
      obtain ⟨hsize, -, -⟩ := hI.ids res (List.mem_of_getElem? hres)
      rw [hres] at h
      simp only [Option.map_some, write_pipe_4, if_pos (hsize.symm ▸ hlt), Option.some.injEq,
        Prod.mk.injEq] at h
      obtain ⟨rfl, rfl⟩ := h
      refine ⟨fun res' hres' => ?_, hI⟩
      obtain rfl := Option.some.inj (hres.symm.trans hres')
      rw [if_neg (by omega)]
      exact ⟨by decide, rfl⟩

end Steps

/-! ### Disjoint reservations -/

/-- Of two packets in one slot, the second is written after the first is read. -/
theorem disjoint_of_inv {N S : ℕ} {s : State} (hI : Inv N S s) : Disjoint N s := by
  refine hI.order.imp_of_mem fun {r r'} hr hr' horder hw hw' i hi j hj heq => ?_
  obtain ⟨h1, h2, -⟩ := hI.bounds r hr hw
  obtain ⟨h1', h2', -⟩ := hI.bounds r' hr' hw'
  obtain ⟨-, -, hstart⟩ := hI.ids r hr
  obtain ⟨-, -, hstart'⟩ := hI.ids r' hr'
  have hle := horder hw hw'
  rw [if_pos hw] at hstart
  rw [if_pos hw'] at hstart'
  have hslot : r.slot N i = (r.written + i) % N := by
    rw [Reservation.slot, hstart, Nat.mod_add_mod]
  have hslot' : r'.slot N j = (r'.written + j) % N := by
    rw [Reservation.slot, hstart', Nat.mod_add_mod]
  refine ⟨r.written + i, by omega, ?_, hslot.symm⟩
  rw [hslot, hslot'] at heq
  -- the two are a multiple of the capacity apart
  by_contra hlt
  exact slot_ne (r := 0) (k := 0) (n := r'.written + j - (r.written + i)) (N := N) (by omega)
    (by omega) (by
      rw [Nat.zero_add, Nat.zero_add, Nat.zero_mod]
      exact (Nat.sub_mod_eq_zero_of_mod_eq heq.symm).symm)

/-! ### The result -/

theorem inv_fresh {N S : ℕ} (hpos : 0 < N) (hN : N < 2 ^ 31) (hS : S < 2 ^ 31)
    (data : ℤ → BitVec 8) : Inv N S (fresh S N data) := by
  have hring : Ring N 0 0 := ⟨0, rfl, by omega, by omega, rfl⟩
  have hnum : int32 (N : ℤ) = N := int32_eq (by omega) (by omega)
  have hsize : int32 (S : ℤ) = S := int32_eq (by omega) (by omega)
  refine ⟨?_, ?_, le_rfl, Nat.zero_le _, ?_, hring, hring,
    fun r hr => absurd hr List.not_mem_nil, fun r hr => absurd hr List.not_mem_nil,
    List.Pairwise.nil⟩
  · simp only [fresh, cl_mem_new_pipe, hnum]
  · simp only [fresh, cl_mem_new_pipe, hsize]
  · simp only [fresh, cl_mem_new_pipe, sub_self]

theorem step_inv {N S : ℕ} (hpos : 0 < N) (hN : N < 2 ^ 31) (hS : S < 2 ^ 31) {s s' : State}
    {c : Call} (h : step s c = some s') (hM : Meets s c) (hI : Inv N S s) : Inv N S s' := by
  obtain ⟨⟨t, r⟩, hperform, rfl⟩ := Option.map_eq_some_iff.mp h
  exact (perform_ok hpos hN hS hI hM hperform).2

/-- In a run whose calls meet the condition, each call does what it should, and at every point the
reservations to write are disjoint unless their slots were read. -/
theorem reservations_exact {N S : ℕ} (hpos : 0 < N) (hN : N < 2 ^ 31) (hS : S < 2 ^ 31)
    (data : ℤ → BitVec 8) {calls : List Call}
    (hM : Transition.StepsMeet step Meets (fresh S N data) calls) {pre post : List Call} {c : Call}
    (hsplit : calls = pre ++ c :: post) {s s' : State} {r : Result}
    (hpre : Transition.exec step (fresh S N data) pre = some s) (hc : perform s c = some (s', r)) :
    Ok N S s s' c r ∧ Disjoint N s' := by
  rw [hsplit, Transition.stepsMeet_append] at hM
  obtain ⟨hpreM, hrest⟩ := hM
  have hI : Inv N S s := Transition.exec_invariant_of_steps
    (fun h hM hI => step_inv hpos hN hS h hM hI) hpre hpreM (inv_fresh hpos hN hS data)
  obtain ⟨hok, hI'⟩ := perform_ok hpos hN hS hI (hrest s hpre).1 hc
  exact ⟨hok, disjoint_of_inv hI'⟩

/-- Two packets are reserved, and three more by a sub-group, on a pipe of four. -/
theorem reservations_exact_four : ∃ s s' r,
    Transition.exec step (fresh 4 4 fun _ => 0) [.reserve_write .plain 2] = some s ∧
      perform s (.reserve_write .sub_group 3) = some (s', r) ∧
      Ok 4 4 s s' (.reserve_write .sub_group 3) r ∧ Disjoint 4 s' := by
  obtain ⟨s, hs⟩ : ∃ s, Transition.exec step (fresh 4 4 fun _ => 0)
      [.reserve_write .plain 2] = some s := ⟨_, rfl⟩
  obtain ⟨⟨s', r⟩, hr⟩ : ∃ t, perform s (.reserve_write .sub_group 3) = some t := ⟨_, rfl⟩
  have hM : Transition.StepsMeet step Meets (fresh 4 4 fun _ => 0)
      [.reserve_write .plain 2, .reserve_write .sub_group 3] := by
    refine ⟨.inr (.inl (by decide)), fun m hm => ⟨?_, fun _ _ => trivial⟩⟩
    cases hm
    exact .inr (.inr ⟨by decide, by decide, by decide⟩)
  exact ⟨s, s', r, hs, hr, reservations_exact (by decide) (by decide) (by decide) _ hM rfl hs hr⟩

/-- A work-group reserves a packet of an empty pipe. -/
theorem not_ok_empty : ∃ s' r,
    perform (fresh 4 4 fun _ => 0) (.reserve_read .work_group 1) = some (s', r) ∧
      ¬ Ok 4 4 (fresh 4 4 fun _ => 0) s' (.reserve_read .work_group 1) r := by
  refine ⟨_, _, rfl, fun h => ?_⟩
  have hvalid := h.valid.mp (by decide)
  revert hvalid
  decide

end PipeReservations

end Runtime
