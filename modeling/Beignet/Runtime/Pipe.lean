/-
Pipes: `cl_mem_new_pipe` (`cl_mem.c`) and the calls `__read_pipe_2` and `__write_pipe_2` of the
device library (`libocl/src/ocl_pipe.cl`).

An `int` is an integer that is wrapped to 32 bits after each operation.  The header and the packets
are apart; a packet is copied byte by byte, to and from the memory behind the pointer of the call.
`atomic_add` and `atomic_sub` answer with the old value: a write is refused when the old number of
packets has reached the capacity, but a read only when the old number is negative, so that it takes
a packet from an empty pipe.

* `write_success`, `read_success` — one call on a pipe that stands for a queue.
* **`pipe_fifo_iff`** — the calls behave as on a bounded queue iff none of them reads from an empty
  pipe;
* **`pipe_storage_iff`** — the packets are in the storage iff its size does not wrap.
-/
import Beignet.Lib.Transition

namespace Runtime

namespace Pipes

abbrev PIPE_SUCCESS : ℤ := 0
abbrev PIPE_EMPTY : ℤ := -2
abbrev PIPE_FULL : ℤ := -3

/-! ### The pipe -/

/-- The value of an `int`. -/
def int32 (v : ℤ) : ℤ := v.bmod (2 ^ 32)

/-- The header of a pipe and what lies behind it. -/
structure Pipe where
  pack_num : ℤ
  pack_size : ℤ
  write_ptr : ℤ
  read_ptr : ℤ
  packet_num : ℤ
  data : ℤ → BitVec 8

def cl_mem_new_pipe (packet_size max_packets : ℕ) (data : ℤ → BitVec 8) : Pipe where
  pack_num := int32 max_packets
  pack_size := int32 packet_size
  write_ptr := 0
  read_ptr := 0
  packet_num := 0
  data := data

/-- The memory behind the pointer that is passed to a call. -/
abbrev Memory := ℕ → BitVec 8

def read_pipe_2 (p : Pipe) (dst : Memory) : Pipe × ℤ × Memory :=
  let data_size := p.packet_num
  let p := { p with packet_num := int32 (p.packet_num - 1) }
  if data_size < 0 then
    ({ p with packet_num := int32 (p.packet_num + 1) }, PIPE_EMPTY, dst)
  else
    let read_ptr := p.read_ptr
    let p := { p with read_ptr := int32 (p.read_ptr + 1) }
    let p :=
      if read_ptr = int32 (p.pack_num - 1) then
        { p with read_ptr := int32 (p.read_ptr - p.pack_num) }
      else p
    let read_ptr := read_ptr.tmod p.pack_num
    (p, PIPE_SUCCESS, (List.range p.pack_size.toNat).foldl (fun dst (i : ℕ) =>
      Function.update dst i (p.data (int32 (i + int32 (read_ptr * p.pack_size))))) dst)

def write_pipe_2 (p : Pipe) (src : Memory) : Pipe × ℤ × Memory :=
  let data_size := p.packet_num
  let p := { p with packet_num := int32 (p.packet_num + 1) }
  if data_size ≥ p.pack_num then
    ({ p with packet_num := int32 (p.packet_num - 1) }, PIPE_FULL, src)
  else
    let write_ptr := p.write_ptr
    let p := { p with write_ptr := int32 (p.write_ptr + 1) }
    let p :=
      if write_ptr = int32 (p.pack_num - 1) then
        { p with write_ptr := int32 (p.write_ptr - p.pack_num) }
      else p
    let write_ptr := write_ptr.tmod p.pack_num
    ({ p with
      data := (List.range p.pack_size.toNat).foldl (fun data (i : ℕ) =>
        Function.update data (int32 (i + int32 (write_ptr * p.pack_size))) (src i)) p.data },
      PIPE_SUCCESS, src)

/-- A read or a write of one packet. -/
inductive Call where
  | read (dst : Memory)
  | write (src : Memory)

/-- A call, with what it returns and the memory behind its pointer after it. -/
def call (p : Pipe) : Call → Pipe × ℤ × Memory
  | .read dst => read_pipe_2 p dst
  | .write src => write_pipe_2 p src

/-! ### The queue -/

abbrev Packet := List (BitVec 8)

/-- The bytes of a packet over those of the destination. -/
def deliver (packet : Packet) (dst : Memory) : Memory := fun i => packet[i]?.getD (dst i)

/-- A queue of at most `capacity` packets of `size` bytes. -/
def fifo (capacity size : ℕ) (queue : List Packet) : Call → List Packet × ℤ × Memory
  | .write src =>
    if queue.length < capacity then (queue ++ [(List.range size).map src], PIPE_SUCCESS, src)
    else (queue, PIPE_FULL, src)
  | .read dst =>
    match queue with
    | packet :: queue => (queue, PIPE_SUCCESS, deliver packet dst)
    | [] => ([], PIPE_EMPTY, dst)

/-! ### Arithmetic of the ring -/

theorem int32_eq {v : ℤ} (hlo : -2 ^ 31 ≤ v) (hhi : v < 2 ^ 31) : int32 v = v := by
  rw [int32, Int.bmod_def]
  split <;> omega

/-- A counter that is raised and lowered again. -/
theorem int32_succ_pred (v : ℤ) : int32 (int32 (v + 1) - 1) = int32 v := by
  have h : int32 (int32 (v + 1) - 1) = int32 (v + 1 - 1) := by
    rw [int32, int32, Int.bmod_sub_bmod]
    rfl
  rw [h, add_sub_cancel_right]

/-- The slots of different packets are different. -/
theorem slot_ne {r k n N : ℕ} (hk : k < n) (hn : n < N) : (r + k) % N ≠ (r + n) % N := by
  intro heq
  have hmod : k % N = n % N := Nat.ModEq.add_left_cancel' r heq
  rw [Nat.mod_eq_of_lt (hk.trans hn), Nat.mod_eq_of_lt hn] at hmod
  omega

/-- The size of the pipe is an `int`. -/
structure Fits (N S : ℕ) : Prop where
  pos : 0 < N
  num : N < 2 ^ 31
  size : S < 2 ^ 31
  total : N * S ≤ 2 ^ 31

/-- The bytes of a slot, seen from the data. -/
theorem Fits.offset {N S : ℕ} (h : Fits N S) {slot i : ℕ} (hs : slot < N) (hi : i < S) :
    int32 (i + int32 (slot * S)) = ((slot * S + i : ℕ) : ℤ) := by
  have hmul : slot * S + S ≤ N * S := by
    rw [← Nat.succ_mul]
    exact Nat.mul_le_mul_right S hs
  have hlt : slot * S + i < 2 ^ 31 := by
    have := h.total
    omega
  have hin : ((slot : ℤ) * S) = ((slot * S : ℕ) : ℤ) := by push_cast; rfl
  have hsum : (i : ℤ) + ((slot * S : ℕ) : ℤ) = ((slot * S + i : ℕ) : ℤ) := by push_cast; ring
  have hbase : int32 ((slot * S : ℕ) : ℤ) = (slot * S : ℕ) := int32_eq (by omega) (by omega)
  rw [hin, hbase, hsum, int32_eq (by omega) (by omega)]

/-! ### The copies -/

theorem read_loop (f : ℕ → BitVec 8) (dst : Memory) (n i : ℕ) :
    (List.range n).foldl (fun dst (i : ℕ) => Function.update dst i (f i)) dst i =
      if i < n then f i else dst i := by
  induction n with
  | zero => rfl
  | succ n ih =>
    rw [List.range_succ, List.foldl_append, List.foldl_cons, List.foldl_nil, Function.update_apply,
      ih]
    by_cases hin : i = n
    · rw [if_pos hin, if_pos (by omega), hin]
    · rw [if_neg hin]
      exact if_congr (by omega) rfl rfl

/-- A packet that is written byte by byte. -/
theorem write_loop (place : ℕ → ℤ) (src : Memory) (data : ℤ → BitVec 8) (n : ℕ)
    (hinj : ∀ i < n, ∀ j < n, place i = place j → i = j) :
    (∀ i < n, (List.range n).foldl (fun data (i : ℕ) => Function.update data (place i) (src i)) data
      (place i) = src i) ∧
    ∀ o, (∀ i < n, o ≠ place i) →
      (List.range n).foldl (fun data (i : ℕ) => Function.update data (place i) (src i)) data o =
        data o := by
  induction n with
  | zero => exact ⟨fun i hi => absurd hi (Nat.not_lt_zero i), fun _ _ => rfl⟩
  | succ n ih =>
    obtain ⟨hval, hrest⟩ := ih fun i hi j hj => hinj i (by omega) j (by omega)
    rw [List.range_succ, List.foldl_append, List.foldl_cons, List.foldl_nil]
    constructor
    · intro i hi
      by_cases hin : i = n
      · rw [hin, Function.update_self]
      · have hne : place i ≠ place n := fun h => hin (hinj i hi n (by omega) h)
        rw [Function.update_of_ne hne, hval i (by omega)]
    · intro o ho
      rw [Function.update_of_ne (ho n (by omega)), hrest o fun i hi => ho i (by omega)]

/-! ### The pipe as a queue -/

/-- The packet in a slot. -/
def packetAt (S : ℕ) (data : ℤ → BitVec 8) (slot : ℕ) : Packet :=
  (List.range S).map fun i => data ((slot * S + i : ℕ) : ℤ)

/-- The bytes of a slot are copied. -/
theorem read_loop_eq {N S : ℕ} (h : Fits N S) {slot : ℕ} (hs : slot < N) (data : ℤ → BitVec 8)
    (dst : Memory) :
    (List.range S).foldl (fun dst (i : ℕ) =>
        Function.update dst i (data (int32 (i + int32 (slot * S))))) dst =
      deliver (packetAt S data slot) dst := by
  refine funext fun i => ?_
  rw [deliver, read_loop]
  by_cases hi : i < S
  · rw [if_pos hi, h.offset hs hi]
    simp [packetAt, hi]
  · rw [if_neg hi]
    simp [packetAt, hi]

/-- The queue is in the slots from the next one to read on. -/
structure Represents (N S : ℕ) (p : Pipe) (queue : List Packet) : Prop where
  pack_num : p.pack_num = N
  pack_size : p.pack_size = S
  packet_num : p.packet_num = queue.length
  length : queue.length ≤ N
  ring : ∃ r < N, p.read_ptr = r ∧ p.write_ptr = ((r + queue.length) % N : ℕ) ∧
    queue = (List.range queue.length).map fun k => packetAt S p.data ((r + k) % N)

theorem represents_new {N S : ℕ} (h : Fits N S) (data : ℤ → BitVec 8) :
    Represents N S (cl_mem_new_pipe S N data) [] := by
  have hnum := h.num
  have hsize := h.size
  refine ⟨?_, ?_, rfl, Nat.zero_le N, 0, h.pos, rfl, ?_, rfl⟩
  · simp only [cl_mem_new_pipe]
    exact int32_eq (by omega) (by omega)
  · simp only [cl_mem_new_pipe]
    exact int32_eq (by omega) (by omega)
  · simp [cl_mem_new_pipe]

/-- The index that an operation leaves. -/
theorem next_index {N : ℕ} (hpos : 0 < N) (hN : N < 2 ^ 31) {i : ℕ} (hi : i < N) :
    (if (i : ℤ) = int32 (N - 1) then int32 (int32 (i + 1) - N) else int32 (i + 1)) =
      ((i + 1) % N : ℕ) := by
  rw [int32_eq (by omega) (by omega), int32_eq (show -2 ^ 31 ≤ (i : ℤ) + 1 by omega) (by omega)]
  split
  · rename_i hlast
    obtain rfl : i + 1 = N := by omega
    rw [int32_eq (by omega) (by omega), Nat.mod_self]
    push_cast
    ring
  · rename_i hlast
    rw [Nat.mod_eq_of_lt (by omega)]
    push_cast
    rfl

section

variable {N S : ℕ} (h : Fits N S) {p : Pipe} {queue : List Packet}
include h

/-- The packets after one is written. -/
def writtenData (S : ℕ) (data : ℤ → BitVec 8) (slot : ℕ) (src : Memory) : ℤ → BitVec 8 :=
  (List.range S).foldl (fun data (i : ℕ) =>
    Function.update data (int32 (i + int32 (slot * S))) (src i)) data

theorem packetAt_written (data : ℤ → BitVec 8) (src : Memory) {slot : ℕ} (hs : slot < N)
    (slot' : ℕ) :
    packetAt S (writtenData S data slot src) slot' =
      if slot' = slot then (List.range S).map src else packetAt S data slot' := by
  have hplace : ∀ i < S, int32 (i + int32 (slot * S)) = ((slot * S + i : ℕ) : ℤ) :=
    fun i hi => h.offset hs hi
  obtain ⟨hval, hrest⟩ := write_loop (fun i => int32 (i + int32 (slot * S))) src data S (by
    intro i hi j hj heq
    simp only [hplace i hi, hplace j hj] at heq
    omega)
  split
  · rename_i heq
    refine List.map_congr_left fun i hi => ?_
    have hi' : i < S := List.mem_range.mp hi
    rw [heq, ← hplace i hi']
    exact hval i hi'
  · rename_i hne
    refine List.map_congr_left fun i hi => hrest _ fun j hj => ?_
    have hi' : i < S := List.mem_range.mp hi
    rw [hplace j hj]
    -- two slots have no byte in common
    rcases Nat.lt_or_gt_of_ne hne with hlt | hlt
    · have := Nat.mul_le_mul_right S hlt
      rw [Nat.succ_mul] at this
      omega
    · have := Nat.mul_le_mul_right S hlt
      rw [Nat.succ_mul] at this
      omega

omit h in
theorem tmod_eq {i : ℕ} (hi : i < N) : (i : ℤ).tmod N = i := by
  rw [Int.tmod_eq_emod_of_nonneg (by omega), Int.emod_eq_of_lt (by omega) (by omega)]

/-- A write to a queue that is not full. -/
theorem write_success (hR : Represents N S p queue) (hlt : queue.length < N) (src : Memory) :
    (write_pipe_2 p src).2 = (PIPE_SUCCESS, src) ∧
      Represents N S (write_pipe_2 p src).1 (queue ++ [(List.range S).map src]) := by
  have hnum := h.num
  obtain ⟨r, hr, hread, hwrite, hqueue⟩ := hR.ring
  set w := (r + queue.length) % N with hw
  have hwN : w < N := Nat.mod_lt _ h.pos
  have hcount : ¬ p.packet_num ≥ (N : ℤ) := by
    rw [hR.packet_num]
    omega
  have heq : write_pipe_2 p src =
      ({ p with
          packet_num := int32 (p.packet_num + 1)
          write_ptr := ((w + 1) % N : ℕ)
          data := writtenData S p.data w src }, PIPE_SUCCESS, src) := by
    have hnext := next_index h.pos hnum hwN
    simp only [write_pipe_2, hR.pack_num, if_neg hcount, hR.pack_size, hwrite]
    by_cases hlast : (w : ℤ) = int32 (N - 1)
    · rw [if_pos hlast] at hnext
      simp only [if_pos hlast, hnext, tmod_eq hwN, Int.toNat_natCast, writtenData]
    · rw [if_neg hlast] at hnext
      simp only [if_neg hlast, hnext, tmod_eq hwN, Int.toNat_natCast, writtenData]
  rw [heq]
  refine ⟨rfl, hR.pack_num, hR.pack_size, ?_, ?_, r, hr, hread, ?_, ?_⟩
  · simp only [hR.packet_num, List.length_append, List.length_singleton]
    exact int32_eq (by omega) (by omega)
  · simp only [List.length_append, List.length_singleton]
    omega
  · simp only [List.length_append, List.length_singleton]
    rw [hw, Nat.mod_add_mod, Nat.add_assoc]
  · simp only [List.length_append, List.length_singleton, List.range_succ, List.map_append,
      List.map_singleton]
    congr 1
    · conv_lhs => rw [hqueue]
      refine List.map_congr_left fun k hk => ?_
      have hk' : k < queue.length := List.mem_range.mp hk
      rw [packetAt_written h p.data src hwN, if_neg (slot_ne hk' hlt)]
    · rw [packetAt_written h p.data src hwN, if_pos rfl]

theorem write_full (hR : Represents N S p queue) (hle : ¬ queue.length < N) (src : Memory) :
    write_pipe_2 p src = (p, PIPE_FULL, src) := by
  have hnum := h.num
  have hlen := hR.length
  have hcount : p.packet_num ≥ p.pack_num := by
    rw [hR.packet_num, hR.pack_num]
    omega
  have hback : int32 (int32 (p.packet_num + 1) - 1) = p.packet_num := by
    rw [int32_succ_pred, hR.packet_num]
    exact int32_eq (by omega) (by omega)
  simp only [write_pipe_2, if_pos hcount, hback]

/-- A read from a queue that is not empty. -/
theorem read_success {packet : Packet} (hR : Represents N S p (packet :: queue)) (dst : Memory) :
    (read_pipe_2 p dst).2 = (PIPE_SUCCESS, deliver packet dst) ∧
      Represents N S (read_pipe_2 p dst).1 queue := by
  have hnum := h.num
  have hlen := hR.length
  rw [List.length_cons] at hlen
  obtain ⟨r, hr, hread, hwrite, hqueue⟩ := hR.ring
  have hcount : ¬ p.packet_num < 0 := by
    rw [hR.packet_num]
    omega
  have heq : read_pipe_2 p dst =
      ({ p with
          packet_num := int32 (p.packet_num - 1)
          read_ptr := ((r + 1) % N : ℕ) }, PIPE_SUCCESS,
        (List.range S).foldl (fun dst (i : ℕ) =>
          Function.update dst i (p.data (int32 (i + int32 (r * S))))) dst) := by
    have hnext := next_index h.pos hnum hr
    simp only [read_pipe_2, if_neg hcount, hR.pack_num, hR.pack_size, hread]
    by_cases hlast : (r : ℤ) = int32 (N - 1)
    · rw [if_pos hlast] at hnext
      simp only [if_pos hlast, hnext, tmod_eq hr, Int.toNat_natCast]
    · rw [if_neg hlast] at hnext
      simp only [if_neg hlast, hnext, tmod_eq hr, Int.toNat_natCast]
  -- the first packet, and those after it
  rw [List.length_cons, List.range_succ_eq_map, List.map_cons, List.map_map, List.cons.injEq,
    Nat.add_zero, Nat.mod_eq_of_lt hr] at hqueue
  obtain ⟨hfirst, hrest⟩ := hqueue
  rw [heq]
  refine ⟨?_, hR.pack_num, hR.pack_size, ?_, by omega, (r + 1) % N, Nat.mod_lt _ h.pos, rfl, ?_, ?_⟩
  · refine Prod.ext rfl ?_
    simp only [read_loop_eq h hr, hfirst]
  · simp only [hR.packet_num, List.length_cons]
    push_cast
    rw [add_sub_cancel_right]
    exact int32_eq (by omega) (by omega)
  · rw [hwrite, Nat.mod_add_mod, List.length_cons]
    congr 2
    omega
  · conv_lhs => rw [hrest]
    refine List.map_congr_left fun k _ => ?_
    show packetAt S p.data ((r + (k + 1)) % N) = packetAt S p.data (((r + 1) % N + k) % N)
    rw [Nat.mod_add_mod]
    congr 2
    omega

omit h in
/-- A read from an empty pipe succeeds. -/
theorem read_empty (hR : Represents N S p []) (dst : Memory) :
    (read_pipe_2 p dst).2.1 = PIPE_SUCCESS := by
  have hcount : ¬ p.packet_num < 0 := by
    rw [hR.packet_num]
    simp
  simp only [read_pipe_2, if_neg hcount]

end

/-! ### Sequences of calls -/

/-- The call is no read from an empty pipe. -/
def NotEmptyRead (p : Pipe) : Call → Prop
  | .read _ => p.packet_num ≠ 0
  | .write _ => True

/-- On a fresh pipe whose size is an `int`, the calls behave as on a queue of that capacity iff
none of them reads while the pipe holds no packet. -/
theorem pipe_fifo_iff {packet_size max_packets : ℕ} (h : Fits max_packets packet_size)
    (data : ℤ → BitVec 8) (calls : List Call) :
    Transition.outputs call (cl_mem_new_pipe packet_size max_packets data) calls =
        Transition.outputs (fifo max_packets packet_size) [] calls ↔
      Transition.StepsMeet (Transition.ofStep call) NotEmptyRead
        (cl_mem_new_pipe packet_size max_packets data) calls := by
  refine Transition.outputs_eq_iff (R := Represents max_packets packet_size) ?_ ?_
    (represents_new h data)
  · intro p queue a hR hC
    cases a with
    | write src =>
      simp only [call, fifo]
      by_cases hlt : queue.length < max_packets
      · rw [if_pos hlt]
        exact write_success h hR hlt src
      · rw [if_neg hlt, write_full h hR hlt src]
        exact ⟨rfl, hR⟩
    | read dst =>
      cases queue with
      | nil => exact absurd hR.packet_num hC
      | cons packet queue => exact read_success h hR dst
  · intro p queue a hR hC
    cases a with
    | write src => exact absurd trivial hC
    | read dst =>
      have hzero : p.packet_num = 0 := by
        by_contra hne
        exact hC hne
      have hnil : queue = [] := by
        have := hR.packet_num
        rw [hzero] at this
        exact List.length_eq_zero_iff.mp (by omega)
      subst hnil
      intro heq
      have hcode := congrArg Prod.fst heq
      rw [call, read_empty hR] at hcode
      simp [fifo] at hcode

/-- A packet that is written and read, on a pipe of one packet of four bytes. -/
theorem pipe_fifo_one : Fits 1 4 ∧
    Transition.outputs call (cl_mem_new_pipe 4 1 fun _ => 0) [.write fun _ => 7, .read fun _ => 0] =
      Transition.outputs (fifo 1 4) [] [.write fun _ => 7, .read fun _ => 0] := by
  have h : Fits 1 4 := ⟨by omega, by omega, by omega, by omega⟩
  refine ⟨h, (pipe_fifo_iff h _ _).mpr ⟨trivial, fun m hm => ⟨?_, fun _ _ => trivial⟩⟩⟩
  cases hm
  show (call (cl_mem_new_pipe 4 1 fun _ => 0) (.write fun _ => 7)).1.packet_num ≠ 0
  decide

/-- A read from a fresh pipe returns 0. -/
theorem read_fresh_wrong :
    Transition.outputs call (cl_mem_new_pipe 4 1 fun _ => 0) [.read fun _ => 0] ≠
      Transition.outputs (fifo 1 4) [] [.read fun _ => 0] := by
  intro heq
  have hcodes := congrArg (List.map Prod.fst) heq
  revert hcodes
  decide

/-! ### Storage -/

abbrev PIPE_HEADER_SZ : ℕ := 128

/-- `ALIGN` -/
def align (a b : BitVec 32) : BitVec 32 := if a % b ≠ 0 then a + b - a % b else a

/-- The `sz` of a pipe that `cl_mem_new_pipe` creates, if memory of that size can be had. -/
def storage (allocate : BitVec 32 → Bool) (packet_size max_packets : BitVec 32) :
    Option (BitVec 32) :=
  let sz := packet_size * max_packets
  if sz = 0 then none
  else
    let sz := align sz 4
    let sz := sz + 128
    if allocate sz then some sz else none

/-- A byte of a slot, from the header on. -/
def address (packet_size slot i : ℕ) : ℕ := PIPE_HEADER_SZ + slot * packet_size + i

theorem toNat_align (a : BitVec 32) :
    (align a 4).toNat = (a.toNat + 3) / 4 * 4 % 2 ^ 32 := by
  have hmod : (a % 4).toNat = a.toNat % 4 := BitVec.toNat_umod
  rw [align]
  split
  · next hne =>
    have hpos : a.toNat % 4 ≠ 0 := fun h => hne (BitVec.eq_of_toNat_eq (hmod.trans h))
    rw [BitVec.toNat_sub, BitVec.toNat_add, hmod]
    have hfour : (4 : BitVec 32).toNat = 4 := rfl
    omega
  · next heq =>
    have hzero : a.toNat % 4 = 0 := by
      rw [← hmod, not_not.mp heq]
      rfl
    omega

/-- All bytes of a pipe that is created are in its storage iff the size does not wrap. -/
theorem pipe_storage_iff {allocate : BitVec 32 → Bool} {packet_size max_packets sz : BitVec 32}
    (h : storage allocate packet_size max_packets = some sz) :
    (∀ slot < max_packets.toNat, ∀ i < packet_size.toNat,
        address packet_size.toNat slot i < sz.toNat) ↔
      packet_size.toNat * max_packets.toNat + PIPE_HEADER_SZ ≤ 2 ^ 32 - 4 := by
  simp only [storage] at h
  split at h
  · cases h
  · next hne =>
    split at h
    · cases h
      have hsz : (align (packet_size * max_packets) 4 + 128).toNat =
          ((packet_size.toNat * max_packets.toNat % 2 ^ 32 + 3) / 4 * 4 % 2 ^ 32 + 128) %
            2 ^ 32 := by
        rw [BitVec.toNat_add, toNat_align, BitVec.toNat_mul]
        rfl
      have hpos : packet_size.toNat * max_packets.toNat ≠ 0 := by
        intro hzero
        apply hne
        apply BitVec.eq_of_toNat_eq
        rw [BitVec.toNat_mul, hzero]
        rfl
      have hps : 0 < packet_size.toNat := Nat.pos_of_ne_zero fun h => hpos (by rw [h, Nat.zero_mul])
      have hmp : 0 < max_packets.toNat := Nat.pos_of_ne_zero fun h => hpos (by rw [h, Nat.mul_zero])
      have hcomm := Nat.mul_comm packet_size.toNat max_packets.toNat
      have hheader : PIPE_HEADER_SZ = 128 := rfl
      rw [hsz]
      constructor
      · intro hin
        -- the last byte of the last slot
        have hlast := hin (max_packets.toNat - 1) (by omega) (packet_size.toNat - 1) (by omega)
        have hmul : (max_packets.toNat - 1) * packet_size.toNat + packet_size.toNat =
            max_packets.toNat * packet_size.toNat := by
          rw [← Nat.succ_mul, Nat.succ_eq_add_one, Nat.sub_add_cancel hmp]
        rw [address] at hlast
        omega
      · intro hle slot hslot i hi
        have hmul : slot * packet_size.toNat + packet_size.toNat ≤
            max_packets.toNat * packet_size.toNat := by
          rw [← Nat.succ_mul]
          exact Nat.mul_le_mul_right _ hslot
        rw [address]
        omega
    · cases h

/-- Ten packets of six bytes. -/
theorem pipe_storage_sixty : storage (fun _ => true) 6 10 = some 188 ∧
    ∀ slot < 10, ∀ i < 6, address 6 slot i < 188 := by
  have h : storage (fun _ => true) 6 10 = some 188 := by decide
  exact ⟨h, (pipe_storage_iff h).mpr (by decide)⟩

/-- Packets of 2 ^ 16 + 1 bytes and as many of them: the storage holds the first two. -/
theorem storage_wrong : storage (fun _ => true) 65537 65537 = some 131204 ∧
    ¬ ∀ slot < 65537, ∀ i < 65537, address 65537 slot i < 131204 := by
  refine ⟨by decide, fun h => ?_⟩
  have hlast := h 65536 (by omega) 0 (by omega)
  rw [address] at hlast
  omega

end Pipes

end Runtime
