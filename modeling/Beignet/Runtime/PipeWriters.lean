/-
Work-items that write to a pipe at the same time: the atomic operations of `__write_pipe_2`
(`libocl/src/ocl_pipe.cl`), in any order.

A writer raises the number of packets before it knows whether there is room, and lowers it again
when there is none; it takes an index, and wraps the index back in an operation of its own.  What
the writers have raised, taken and not yet wrapped is a total over the work-items, and a step
changes it by what the one work-item does.

* `step_inv` — the counters are what the totals say;
* `exists_complete` — all work-items can come to their end;
* **`writers_iff`** — the writers do not clash, in any order, iff the counters do not overflow.
-/
import Beignet.Lib.Lists
import Beignet.Runtime.Pipe

namespace Runtime

namespace PipeWriters

open Pipes

/-! ### The work-items -/

/-- How far a work-item has come. -/
inductive Item where
  | start
  /-- there was no room -/
  | refused
  | accepted
  /-- the last index is taken, and not yet wrapped -/
  | wrapping (write_ptr : ℤ)
  | copying (write_ptr : ℤ)
  | full
  | written (slot : ℤ)

/-- The pipe and its writers. -/
structure State where
  pipe : Pipe
  items : List Item

/-- What a call returns. -/
def Item.ret : Item → Option ℤ
  | full => some PIPE_FULL
  | written _ => some PIPE_SUCCESS
  | _ => none

/-- The next atomic operation of a work-item, or its copy. -/
def advance (p : Pipe) (src : Memory) : Item → Option (Pipe × Item)
  | .start =>
    some ({ p with packet_num := int32 (p.packet_num + 1) },
      if p.packet_num ≥ p.pack_num then .refused else .accepted)
  | .refused => some ({ p with packet_num := int32 (p.packet_num - 1) }, .full)
  | .accepted =>
    some ({ p with write_ptr := int32 (p.write_ptr + 1) },
      if p.write_ptr = int32 (p.pack_num - 1) then .wrapping p.write_ptr else .copying p.write_ptr)
  | .wrapping write_ptr =>
    some ({ p with write_ptr := int32 (p.write_ptr - p.pack_num) }, .copying write_ptr)
  | .copying write_ptr =>
    let slot := write_ptr.tmod p.pack_num
    some ({ p with
      data := (List.range p.pack_size.toNat).foldl (fun data (i : ℕ) =>
        Function.update data (int32 (i + int32 (slot * p.pack_size))) (src i)) p.data },
      .written slot)
  | .full => none
  | .written _ => none

/-- A step of work-item `i`; the packets to write are in `src`. -/
def step (src : ℕ → Memory) (s : State) (i : ℕ) : Option State :=
  s.items[i]?.bind fun item =>
    (advance s.pipe (src i) item).map fun (p, item) => ⟨p, s.items.set i item⟩

/-- No writer has started. -/
def init (p : Pipe) (m : ℕ) : State := ⟨p, List.replicate m Item.start⟩

/-! ### What is asked for -/

def Complete (s : State) : Prop := ∀ item ∈ s.items, item.ret ≠ none

def Item.slot : Item → Option ℤ
  | written slot => some slot
  | _ => none

/-- The slots that are written. -/
def slots (s : State) : List ℤ := s.items.filterMap Item.slot

/-- A pipe of `N` slots, with `c0` packets; the next index is `w0`. -/
structure Initial (p : Pipe) (N c0 w0 : ℕ) : Prop where
  pos : 0 < N
  int : N < 2 ^ 31
  pack_num : p.pack_num = N
  packet_num : p.packet_num = c0
  le : c0 ≤ N
  write_ptr : p.write_ptr = w0
  lt : w0 < N

/-- `n` calls succeeded, and filled the next `n` slots. -/
structure Filled (N c0 w0 n : ℕ) (s : State) : Prop where
  returned : s.items.countP (fun item => item.ret = some PIPE_SUCCESS) = n
  nodup : (slots s).Nodup
  slots : ∀ x, x ∈ slots s ↔ ∃ k < n, x = ((w0 + k) % N : ℕ)
  packet_num : s.pipe.packet_num = c0 + n

/-! ### Totals -/

/-- What all work-items contribute. -/
def total {M : Type} [AddCommMonoid M] (f : Item → M) (items : List Item) : M := (items.map f).sum

/-- The contributions to the number of packets, -/
def raised : Item → ℕ
  | .start => 0
  | .full => 0
  | _ => 1

/-- to the packets there is room for, -/
def room : Item → ℕ
  | .start => 0
  | .refused => 0
  | .full => 0
  | _ => 1

def denied : Item → ℕ
  | .refused => 1
  | .full => 1
  | _ => 0

/-- to the packets without an index, -/
def waiting : Item → ℕ
  | .accepted => 1
  | _ => 0

def unwrapped : Item → ℕ
  | .wrapping _ => 1
  | _ => 0

/-- and to the slots that are taken. -/
def taken (N : ℕ) : Item → Multiset ℤ
  | .wrapping write_ptr => {write_ptr.tmod N}
  | .copying write_ptr => {write_ptr.tmod N}
  | .written slot => {slot}
  | _ => 0

section Totals

variable {M : Type} [AddCommMonoid M] {items : List Item}

theorem total_set (f : Item → M) {i : ℕ} {item : Item} (item' : Item)
    (h : items[i]? = some item) :
    total f (items.set i item') + f item = total f items + f item' :=
  Lists.sum_map_set f item' h

theorem total_add {f g h : Item → ℕ} (hfg : ∀ item, f item + g item = h item)
    (items : List Item) : total f items + total g items = total h items := by
  rw [total, total, total, ← List.sum_map_add]
  exact congrArg List.sum (List.map_congr_left fun item _ => hfg item)

theorem total_mono {f g : Item → ℕ} (hfg : ∀ item, f item ≤ g item) (items : List Item) :
    total f items ≤ total g items :=
  List.sum_le_sum fun item _ => hfg item

theorem total_le {f : Item → ℕ} (hf : ∀ item, f item ≤ 1) (items : List Item) :
    total f items ≤ items.length := by
  refine (total_mono hf items).trans (le_of_eq ?_)
  simp [total]

theorem card_taken_add (N : ℕ) (items : List Item) :
    (total (taken N) items).card + total waiting items = total room items := by
  induction items with
  | nil => rfl
  | cons item items ih =>
    have hitem : (taken N item).card + waiting item = room item := by cases item <;> rfl
    simp only [total, List.map_cons, List.sum_cons, Multiset.card_add] at ih ⊢
    omega

end Totals

/-- A total that a step leaves as it was. -/
theorem total_set_eq {M : Type} [AddCancelCommMonoid M] (f : Item → M) {items : List Item} {i : ℕ}
    {item item' : Item} (h : items[i]? = some item) (hf : f item' = f item) :
    total f (items.set i item') = total f items := by
  have hset := total_set f item' h
  rw [hf] at hset
  exact add_right_cancel hset

/-! ### Steps -/

/-- A step is one of one work-item. -/
theorem step_eq_some {src : ℕ → Memory} {s s' : State} {i : ℕ} (h : step src s i = some s') :
    ∃ item p' item', s.items[i]? = some item ∧ advance s.pipe (src i) item = some (p', item') ∧
      s' = ⟨p', s.items.set i item'⟩ := by
  obtain ⟨item, hitem, h⟩ := Option.bind_eq_some_iff.mp h
  obtain ⟨⟨p', item'⟩, hadvance, rfl⟩ := Option.map_eq_some_iff.mp h
  exact ⟨item, p', item', hitem, hadvance, rfl⟩

theorem int32_int32_sub (a b : ℤ) : int32 (int32 a - b) = int32 (a - b) := by
  rw [int32, int32, int32, Int.bmod_sub_bmod]

theorem int32_int32_add (a b : ℤ) : int32 (int32 a + b) = int32 (a + b) := by
  rw [int32, int32, int32, Int.bmod_add_bmod]

theorem room_le_raised (items : List Item) : total room items ≤ total raised items :=
  total_mono (fun item => by cases item <;> simp [room, raised]) items

/-- What is raised beyond the packets there is room for belongs to work-items that were denied. -/
theorem raised_le (items : List Item) :
    total raised items ≤ total room items + total denied items := by
  rw [total_add (h := fun item => room item + denied item) fun item => rfl]
  exact total_mono (fun item => by cases item <;> simp [raised, room, denied]) items

theorem raised_le_length (items : List Item) : total raised items ≤ items.length :=
  total_le (fun item => by cases item <;> simp [raised]) items

theorem room_add_denied_le (items : List Item) :
    total room items + total denied items ≤ items.length := by
  rw [total_add (h := fun item => room item + denied item) fun item => rfl]
  exact total_le (fun item => by cases item <;> simp [room, denied]) items

/-- The number of packets is what the work-items contributed; none is denied while there is room. -/
structure Counted (N c0 : ℕ) (packet_num : ℤ) (items : List Item) : Prop where
  packet_num_eq : packet_num = int32 ((c0 + total raised items : ℕ) : ℤ)
  le : total room items ≤ N - c0
  eq : 0 < total denied items → total room items = N - c0

/-- How many indices are taken. -/
def index (N : ℕ) (items : List Item) : ℕ := (total (taken N) items).card

/-- The indices are taken in order; the next one is behind them, or already wrapped. -/
structure Indexed (N w0 : ℕ) (write_ptr : ℤ) (items : List Item) : Prop where
  taken_eq : total (taken N) items =
    (Multiset.range (index N items)).map fun k => (((w0 + k) % N : ℕ) : ℤ)
  le : total unwrapped items ≤ 1
  passed : 0 < total unwrapped items → N ≤ w0 + index N items
  write_ptr_eq : write_ptr = int32 (if total unwrapped items = 0 ∧ N ≤ w0 + index N items
    then ((w0 + index N items : ℕ) : ℤ) - N else ((w0 + index N items : ℕ) : ℤ))

section Steps

variable {N c0 w0 : ℕ} {packet_num write_ptr : ℤ} {items : List Item} {i : ℕ} {item item' : Item}

/-- A step that does not touch the number of packets. -/
theorem Counted.set (h : Counted N c0 packet_num items) (hitem : items[i]? = some item)
    (hraised : raised item' = raised item) (hroom : room item' = room item)
    (hdenied : denied item' = denied item) : Counted N c0 packet_num (items.set i item') := by
  refine ⟨?_, ?_, ?_⟩
  · rw [total_set_eq raised hitem hraised]
    exact h.packet_num_eq
  · rw [total_set_eq room hitem hroom]
    exact h.le
  · rw [total_set_eq room hitem hroom, total_set_eq denied hitem hdenied]
    exact h.eq

/-- A step that does not touch the index. -/
theorem Indexed.set (h : Indexed N w0 write_ptr items) (hitem : items[i]? = some item)
    (htaken : taken N item' = taken N item) (hunwrapped : unwrapped item' = unwrapped item) :
    Indexed N w0 write_ptr (items.set i item') := by
  have htotal := total_set_eq (taken N) hitem htaken
  have hindex : index N (items.set i item') = index N items := congrArg Multiset.card htotal
  have hzero := total_set_eq unwrapped hitem hunwrapped
  refine ⟨?_, ?_, ?_, ?_⟩
  · rw [htotal, hindex]
    exact h.taken_eq
  · rw [hzero]
    exact h.le
  · rw [hzero, hindex]
    exact h.passed
  · rw [hzero, hindex]
    exact h.write_ptr_eq

/-- A work-item asks for room; the count has not overflowed. -/
theorem Counted.start (h : Counted N c0 packet_num items) (hc : c0 ≤ N)
    (hitem : items[i]? = some .start) (hb : c0 + items.length ≤ 2 ^ 31) :
    Counted N c0 (int32 (packet_num + 1))
      (items.set i (if packet_num ≥ (N : ℤ) then .refused else .accepted)) := by
  have hcount : packet_num = ((c0 + total raised items : ℕ) : ℤ) := by
    have hset : total raised (items.set i .accepted) = total raised items + 1 :=
      total_set raised .accepted hitem
    have hle := raised_le_length (items.set i .accepted)
    rw [List.length_set] at hle
    rw [h.packet_num_eq]
    exact int32_eq (by omega) (by omega)
  have hle := room_le_raised items
  have hraised_le := raised_le items
  have hroom_le := h.le
  have heq := h.eq
  by_cases hfull : packet_num ≥ (N : ℤ)
  · have hraised : total raised (items.set i .refused) = total raised items + 1 :=
      total_set raised .refused hitem
    have hroom : total room (items.set i .refused) = total room items := total_set_eq room hitem rfl
    rw [if_pos hfull]
    rw [hcount] at hfull
    refine ⟨?_, by omega, fun _ => ?_⟩
    · rw [hraised, hcount]
      push_cast
      rw [add_assoc]
    · -- there is no room, or another one was denied before
      omega
  · have hraised : total raised (items.set i .accepted) = total raised items + 1 :=
      total_set raised .accepted hitem
    have hroom : total room (items.set i .accepted) = total room items + 1 :=
      total_set room .accepted hitem
    have hdenied : total denied (items.set i .accepted) = total denied items :=
      total_set_eq denied hitem rfl
    rw [if_neg hfull]
    rw [hcount] at hfull
    refine ⟨?_, by omega, fun hpos => by omega⟩
    rw [hraised, hcount]
    push_cast
    rw [add_assoc]

/-- A work-item that was denied takes its packet back. -/
theorem Counted.refused (h : Counted N c0 packet_num items) (hitem : items[i]? = some .refused) :
    Counted N c0 (int32 (packet_num - 1)) (items.set i .full) := by
  have hraised : total raised (items.set i .full) + 1 = total raised items :=
    total_set raised .full hitem
  have hroom : total room (items.set i .full) = total room items := total_set_eq room hitem rfl
  have hdenied : total denied (items.set i .full) = total denied items :=
    total_set_eq denied hitem rfl
  refine ⟨?_, ?_, ?_⟩
  · rw [h.packet_num_eq, int32_int32_sub, ← hraised]
    congr 1
    push_cast
    ring
  · rw [hroom]
    exact h.le
  · rw [hroom, hdenied]
    exact h.eq

/-- The next index, when there is still room. -/
theorem Indexed.write_ptr_cases (h : Indexed N w0 write_ptr items)
    (hb : w0 + index N items < 2 ^ 31) :
    total unwrapped items = 0 ∧ N ≤ w0 + index N items ∧
        write_ptr = ((w0 + index N items - N : ℕ) : ℤ) ∨
      (0 < total unwrapped items ∨ w0 + index N items < N) ∧
        write_ptr = ((w0 + index N items : ℕ) : ℤ) := by
  have heq := h.write_ptr_eq
  split at heq
  · next hwrapped =>
    refine .inl ⟨hwrapped.1, hwrapped.2, ?_⟩
    rw [heq, int32_eq (by omega) (by omega)]
    omega
  · next hnot =>
    refine .inr ⟨by omega, ?_⟩
    rw [heq, int32_eq (by omega) (by omega)]

/-- A work-item takes the next index; it has not overflowed, and the last index is taken once. -/
theorem Indexed.accepted (h : Indexed N w0 write_ptr items) (hpos : 0 < N) (hN : N < 2 ^ 31)
    (hw : w0 < N) (hitem : items[i]? = some .accepted) (hlt : index N items < N)
    (hb : w0 + index N items < 2 ^ 31) :
    Indexed N w0 (int32 (write_ptr + 1))
      (items.set i (if write_ptr = int32 (N - 1) then .wrapping write_ptr
        else .copying write_ptr)) := by
  have hcases := h.write_ptr_cases hb
  have hlast : int32 ((N : ℤ) - 1) = N - 1 := int32_eq (by omega) (by omega)
  have hslot : write_ptr.tmod N = (((w0 + index N items) % N : ℕ) : ℤ) := by
    rcases hcases with ⟨-, hle, heq⟩ | ⟨-, heq⟩
    · rw [heq, ← Int.ofNat_tmod, ← Nat.mod_eq_sub_mod hle]
    · rw [heq, ← Int.ofNat_tmod]
  rw [hlast]
  -- the slots that are taken, whichever comes next
  have htaken : ∀ item', taken N item' = {write_ptr.tmod N} →
      index N (items.set i item') = index N items + 1 ∧
        total (taken N) (items.set i item') =
          (Multiset.range (index N items + 1)).map fun k => (((w0 + k) % N : ℕ) : ℤ) := by
    intro item' hitem'
    have hset : total (taken N) (items.set i item') + 0 = total (taken N) items + taken N item' :=
      total_set (taken N) item' hitem
    rw [add_zero, hitem', hslot] at hset
    constructor
    · rw [index, hset, Multiset.card_add, Multiset.card_singleton]
      rfl
    · rw [hset, Multiset.range_succ, Multiset.map_cons, ← Multiset.singleton_add, add_comm,
        ← h.taken_eq]
  have hle := h.le
  by_cases hwrap : write_ptr = (N : ℤ) - 1
  · obtain ⟨hindex, htaken⟩ := htaken (.wrapping write_ptr) rfl
    have hunwrapped : total unwrapped (items.set i (.wrapping write_ptr)) =
        total unwrapped items + 1 := total_set unwrapped (.wrapping write_ptr) hitem
    have hpassed := h.passed
    -- the last index, before it is passed
    have hnow : w0 + index N items = N - 1 ∧ write_ptr = ((w0 + index N items : ℕ) : ℤ) := by
      rcases hcases with ⟨-, -, heq⟩ | ⟨-, heq⟩
      · omega
      · omega
    rw [if_pos hwrap]
    refine ⟨?_, by omega, fun _ => by omega, ?_⟩
    · rw [hindex]
      exact htaken
    · rw [hunwrapped, if_neg (by omega), hindex, hnow.2]
      push_cast
      rw [add_assoc]
  · obtain ⟨hindex, htaken⟩ := htaken (.copying write_ptr) rfl
    have hunwrapped : total unwrapped (items.set i (.copying write_ptr)) = total unwrapped items :=
      total_set_eq unwrapped hitem rfl
    have hpassed := h.passed
    rw [if_neg hwrap]
    refine ⟨?_, by omega, fun hpos => by omega, ?_⟩
    · rw [hindex]
      exact htaken
    · rw [hunwrapped, hindex]
      rcases hcases with ⟨hzero, hle, heq⟩ | ⟨hnot, heq⟩
      · rw [if_pos ⟨hzero, by omega⟩, heq]
        congr 1
        omega
      · rw [if_neg (by omega), heq]
        congr 1

/-- The index is wrapped back. -/
theorem Indexed.wrapping (h : Indexed N w0 write_ptr items) {v : ℤ}
    (hitem : items[i]? = some (.wrapping v)) :
    Indexed N w0 (int32 (write_ptr - N)) (items.set i (.copying v)) := by
  have hunwrapped : total unwrapped (items.set i (.copying v)) + 1 = total unwrapped items :=
    total_set unwrapped (.copying v) hitem
  have htaken : total (taken N) (items.set i (.copying v)) = total (taken N) items :=
    total_set_eq (taken N) hitem rfl
  have hindex : index N (items.set i (.copying v)) = index N items := congrArg Multiset.card htaken
  have hle := h.le
  have hpassed := h.passed (by omega)
  refine ⟨?_, by omega, fun hpos => by omega, ?_⟩
  · rw [htaken, hindex]
    exact h.taken_eq
  · rw [h.write_ptr_eq, if_neg (by omega), int32_int32_sub, hindex, if_pos (by omega)]

end Steps

/-! ### Runs -/

/-- The counters are what the work-items contributed. -/
structure Inv (N c0 w0 m : ℕ) (s : State) : Prop where
  pack_num : s.pipe.pack_num = N
  length : s.items.length = m
  counted : Counted N c0 s.pipe.packet_num s.items
  indexed : Indexed N w0 s.pipe.write_ptr s.items

/-- The counters do not overflow when `m` work-items write. -/
structure Bounded (N c0 w0 m : ℕ) : Prop where
  count : c0 + m ≤ 2 ^ 31
  index : w0 + min m (N - c0) ≤ 2 ^ 31

section Runs

variable {p : Pipe} {N c0 w0 m : ℕ} {src : ℕ → Memory} {s s' : State}

theorem step_inv (h : Initial p N c0 w0) (hb : Bounded N c0 w0 m) {i : ℕ}
    (hstep : step src s i = some s') (hI : Inv N c0 w0 m s) : Inv N c0 w0 m s' := by
  obtain ⟨item, p', item', hitem, hadvance, rfl⟩ := step_eq_some hstep
  have hlength : (s.items.set i item').length = m := by rw [List.length_set, hI.length]
  cases item with
  | start =>
    cases hadvance
    refine ⟨hI.pack_num, hlength, ?_, ?_⟩
    · rw [hI.pack_num]
      exact hI.counted.start h.le hitem (by rw [hI.length]; exact hb.count)
    · split
      · exact hI.indexed.set hitem rfl rfl
      · exact hI.indexed.set hitem rfl rfl
  | refused =>
    cases hadvance
    exact ⟨hI.pack_num, hlength, hI.counted.refused hitem, hI.indexed.set hitem rfl rfl⟩
  | accepted =>
    cases hadvance
    -- the index is taken by one of those there is room for
    have hroom : index N s.items < min m (N - c0) := by
      have hset : total waiting (s.items.set i .full) + 1 = total waiting s.items :=
        total_set waiting .full hitem
      have hcard := card_taken_add N s.items
      have hle := room_add_denied_le s.items
      have hfree := hI.counted.le
      rw [hI.length] at hle
      rw [index]
      omega
    have hbound := hb.index
    refine ⟨hI.pack_num, hlength, ?_, ?_⟩
    · split
      · exact hI.counted.set hitem rfl rfl rfl
      · exact hI.counted.set hitem rfl rfl rfl
    · rw [hI.pack_num]
      exact hI.indexed.accepted h.pos h.int h.lt hitem (by omega) (by omega)
  | wrapping write_ptr =>
    cases hadvance
    refine ⟨hI.pack_num, hlength, hI.counted.set hitem rfl rfl rfl, ?_⟩
    rw [hI.pack_num]
    exact hI.indexed.wrapping hitem
  | copying write_ptr =>
    cases hadvance
    refine ⟨hI.pack_num, hlength, hI.counted.set hitem rfl rfl rfl, hI.indexed.set hitem ?_ rfl⟩
    rw [hI.pack_num]
    rfl
  | full => cases hadvance
  | written slot => cases hadvance

theorem total_start {M : Type} [AddCommMonoid M] {f : Item → M} (hf : f .start = 0) (m : ℕ) :
    total f (List.replicate m .start) = 0 := by
  rw [total, List.map_replicate, hf]
  simp

theorem inv_init (h : Initial p N c0 w0) (m : ℕ) : Inv N c0 w0 m (init p m) := by
  have hN := h.int
  have hle := h.le
  have hlt := h.lt
  have hraised : total raised (init p m).items = 0 := total_start rfl m
  have hdenied : total denied (init p m).items = 0 := total_start rfl m
  have hroom : total room (init p m).items = 0 := total_start rfl m
  have hunwrapped : total unwrapped (init p m).items = 0 := total_start rfl m
  have htaken : total (taken N) (init p m).items = 0 := total_start rfl m
  have hindex : index N (init p m).items = 0 := by
    rw [index, htaken]
    rfl
  refine ⟨h.pack_num, List.length_replicate, ⟨?_, by omega, by omega⟩, ?_, by omega, by omega, ?_⟩
  · rw [hraised]
    exact h.packet_num.trans (int32_eq (by omega) (by omega)).symm
  · rw [htaken, hindex]
    rfl
  · rw [hindex, if_neg (by omega)]
    exact h.write_ptr.trans (int32_eq (by omega) (by omega)).symm

/-! ### The end of a run -/

/-- At the end, what is taken is written, -/
theorem coe_slots (hs : Complete s) : (slots s : Multiset ℤ) = total (taken N) s.items := by
  rw [Complete] at hs
  rw [slots]
  generalize s.items = items at hs ⊢
  induction items with
  | nil => rfl
  | cons item items ih =>
    have hrest := ih fun item hitem => hs item (List.mem_cons_of_mem _ hitem)
    have hitem := hs item List.mem_cons_self
    rw [total, List.map_cons, List.sum_cons]
    cases item with
    | written slot =>
      rw [List.filterMap_cons_some (f := Item.slot) rfl, ← Multiset.cons_coe, hrest]
      rfl
    | full =>
      rw [List.filterMap_cons_none (f := Item.slot) rfl, hrest]
      exact (zero_add _).symm
    | _ => exact absurd rfl hitem

/-- and who has found room has succeeded. -/
theorem countP_ret (hs : Complete s) :
    s.items.countP (fun item => item.ret = some PIPE_SUCCESS) = total room s.items := by
  rw [Complete] at hs
  generalize s.items = items at hs ⊢
  induction items with
  | nil => rfl
  | cons item items ih =>
    have hrest := ih fun item hitem => hs item (List.mem_cons_of_mem _ hitem)
    have hitem := hs item List.mem_cons_self
    rw [List.countP_cons, hrest]
    show _ = room item + total room items
    cases item with
    | written slot => exact Nat.add_comm _ _
    | full => exact (Nat.zero_add _).symm
    | _ => exact absurd rfl hitem

theorem total_complete (hs : Complete s) :
    total waiting s.items = 0 ∧ total raised s.items = total room s.items ∧
      total room s.items + total denied s.items = s.items.length := by
  rw [Complete] at hs
  generalize s.items = items at hs ⊢
  induction items with
  | nil => exact ⟨rfl, rfl, rfl⟩
  | cons item items ih =>
    obtain ⟨hwaiting, hraised, hdenied⟩ :=
      ih fun item hitem => hs item (List.mem_cons_of_mem _ hitem)
    have hitem := hs item List.mem_cons_self
    simp only [total, List.map_cons, List.sum_cons, List.length_cons] at hwaiting hraised hdenied ⊢
    cases item with
    | written slot =>
      simp only [waiting, raised, room, denied]
      omega
    | full =>
      simp only [waiting, raised, room, denied]
      omega
    | _ => exact absurd rfl hitem

/-- The counters at the end. -/
theorem filled_of_inv (h : Initial p N c0 w0) (hI : Inv N c0 w0 m s)
    (hs : Complete s) : Filled N c0 w0 (min m (N - c0)) s := by
  obtain ⟨hwaiting, hraised, hlength⟩ := total_complete hs
  have hN := h.int
  have hle := h.le
  have hroom : total room s.items = min m (N - c0) := by
    have hfree := hI.counted.le
    have heq := hI.counted.eq
    rw [hI.length] at hlength
    omega
  have hindex : index N s.items = min m (N - c0) := by
    have hcard := card_taken_add N s.items
    rw [index]
    omega
  have hslots : (slots s : Multiset ℤ) =
      (Multiset.range (min m (N - c0))).map fun k => (((w0 + k) % N : ℕ) : ℤ) := by
    rw [coe_slots hs, hI.indexed.taken_eq, hindex]
  refine ⟨(countP_ret hs).trans hroom, ?_, fun x => ?_, ?_⟩
  · rw [← Multiset.coe_nodup, hslots]
    refine Multiset.Nodup.map_on (fun k hk k' hk' heq => ?_) (Multiset.nodup_range _)
    rw [Multiset.mem_range] at hk hk'
    have heq : (w0 + k) % N = (w0 + k') % N := Int.ofNat.inj heq
    by_contra hne
    rcases Nat.lt_or_gt_of_ne hne with hlt | hlt
    · exact slot_ne hlt (by omega) heq
    · exact slot_ne hlt (by omega) heq.symm
  · rw [← Multiset.mem_coe, hslots, Multiset.mem_map]
    constructor
    · rintro ⟨k, hk, rfl⟩
      exact ⟨k, Multiset.mem_range.mp hk, rfl⟩
    · rintro ⟨k, hk, rfl⟩
      exact ⟨k, Multiset.mem_range.mpr hk, rfl⟩
  · rw [hI.counted.packet_num_eq, hraised, hroom, int32_eq (by omega) (by omega)]
    push_cast
    rfl

end Runs

/-! ### Overflow -/

section Overflow

variable {p : Pipe} {N c0 w0 m : ℕ} {src : ℕ → Memory} {s s' : State}

/-- What was taken stays taken, and who has found room keeps it. -/
structure Grows (N : ℕ) (s s' : State) : Prop where
  pack_num : s.pipe.pack_num = N → s'.pipe.pack_num = N
  room : s.pipe.pack_num = N → total room s.items ≤ total room s'.items
  taken : s.pipe.pack_num = N → total (taken N) s.items ≤ total (taken N) s'.items

theorem advance_grows {packets : Memory} {item item' : Item} {p' : Pipe}
    (h : advance p packets item = some (p', item')) :
    p'.pack_num = p.pack_num ∧ room item ≤ room item' ∧
      (p.pack_num = N → taken N item ≤ taken N item') := by
  cases item with
  | start =>
    cases h
    refine ⟨rfl, Nat.zero_le _, fun _ => ?_⟩
    split
    · exact le_rfl
    · exact le_rfl
  | refused =>
    cases h
    exact ⟨rfl, le_rfl, fun _ => le_rfl⟩
  | accepted =>
    cases h
    refine ⟨rfl, ?_, fun _ => Multiset.zero_le _⟩
    split
    · exact le_rfl
    · exact le_rfl
  | wrapping write_ptr =>
    cases h
    exact ⟨rfl, le_rfl, fun _ => le_rfl⟩
  | copying write_ptr =>
    cases h
    refine ⟨rfl, le_rfl, fun hN => le_of_eq ?_⟩
    rw [hN]
    rfl
  | full => cases h
  | written slot => cases h

theorem step_grows {i : ℕ} (h : step src s i = some s') : Grows N s s' := by
  obtain ⟨item, p', item', hitem, hadvance, rfl⟩ := step_eq_some h
  obtain ⟨hpack, hroom, htaken⟩ := advance_grows (N := N) hadvance
  refine ⟨fun hN => hpack.trans hN, fun _ => ?_, fun hN => ?_⟩
  · have hset := total_set room item' hitem
    show total room s.items ≤ total room (s.items.set i item')
    omega
  · have hle : total (taken N) s.items + taken N item ≤
        total (taken N) (s.items.set i item') + taken N item := by
      rw [total_set (taken N) item' hitem]
      gcongr
      exact htaken hN
    exact le_of_add_le_add_right hle

theorem exec_grows {schedule : List ℕ} (h : Transition.exec (step src) s schedule = some s') :
    Grows N s s' :=
  Transition.exec_relates (R := Grows N) (fun _ => ⟨id, fun _ => le_rfl, fun _ => le_rfl⟩)
    (fun h h' => ⟨fun hN => h'.pack_num (h.pack_num hN),
      fun hN => (h.room hN).trans (h'.room (h.pack_num hN)),
      fun hN => (h.taken hN).trans (h'.taken (h.pack_num hN))⟩) step_grows h

/-- The operations that a work-item has yet to do. -/
def rank : Item → ℕ
  | .start => 4
  | .refused => 1
  | .accepted => 3
  | .wrapping _ => 2
  | .copying _ => 1
  | .full => 0
  | .written _ => 0

theorem exists_advance (p : Pipe) (packets : Memory) {item : Item} (h : item.ret = none) :
    ∃ p' item', advance p packets item = some (p', item') ∧ rank item' < rank item := by
  cases item with
  | start =>
    refine ⟨_, _, rfl, ?_⟩
    split <;> decide
  | accepted =>
    refine ⟨_, _, rfl, ?_⟩
    split
    · exact Nat.lt_succ_self 2
    · exact Nat.lt_of_succ_lt (Nat.lt_succ_self 2)
  | refused => exact ⟨_, _, rfl, Nat.one_pos⟩
  | wrapping write_ptr => exact ⟨_, _, rfl, Nat.lt_succ_self 1⟩
  | copying write_ptr => exact ⟨_, _, rfl, Nat.one_pos⟩
  | full => cases h
  | written slot => cases h

theorem step_of_advance {i : ℕ} {item item' : Item} {p' : Pipe} (hitem : s.items[i]? = some item)
    (h : advance s.pipe (src i) item = some (p', item')) :
    step src s i = some ⟨p', s.items.set i item'⟩ := by
  rw [step, hitem, Option.bind_some, h, Option.map_some]

/-- The work-items can come to their end, wherever they are. -/
theorem exists_complete (src : ℕ → Memory) (s : State) :
    ∃ schedule t, Transition.exec (step src) s schedule = some t ∧ Complete t := by
  by_cases hs : Complete s
  · exact ⟨[], s, rfl, hs⟩
  · simp only [Complete, ne_eq, not_forall, not_not, exists_prop] at hs
    obtain ⟨item, hmem, hret⟩ := hs
    obtain ⟨i, hitem⟩ := List.mem_iff_getElem?.mp hmem
    obtain ⟨p', item', hadvance, hrank⟩ := exists_advance s.pipe (src i) hret
    have hset := total_set rank item' hitem
    obtain ⟨schedule, t, hexec, ht⟩ := exists_complete src ⟨p', s.items.set i item'⟩
    exact ⟨i :: schedule, t,
      Transition.exec_cons_eq_some.mpr ⟨_, step_of_advance hitem hadvance, hexec⟩, ht⟩
  termination_by total rank s.items

theorem pack_num_set (p : Pipe) (packet_num write_ptr : ℤ) :
    ({ p with packet_num := packet_num, write_ptr := write_ptr } : Pipe).pack_num = p.pack_num :=
  rfl

/-- The work-items before `j` are somewhere, the others have not started. -/
def front (m : ℕ) (items : List Item) : List Item :=
  items ++ List.replicate (m - items.length) .start

theorem front_set (items : List Item) (h : items.length < m) (item : Item) :
    (front m items)[items.length]? = some .start ∧
      (front m items).set items.length item = front m (items ++ [item]) := by
  have hrest : m - items.length = (m - (items.length + 1)) + 1 := by omega
  rw [front, hrest, List.replicate_succ]
  refine ⟨?_, ?_⟩
  · rw [List.getElem?_append_right le_rfl, Nat.sub_self, List.getElem?_cons_zero]
  · rw [List.set_append_right _ _ le_rfl, Nat.sub_self, List.set_cons_zero, front,
      List.length_append, List.length_singleton, List.append_assoc, List.singleton_append]

theorem front_set_last (items : List Item) (item item' : Item) :
    (front m (items ++ [item]))[items.length]? = some item ∧
      (front m (items ++ [item])).set items.length item' = front m (items ++ [item']) := by
  rw [front, List.append_assoc, List.singleton_append]
  refine ⟨?_, ?_⟩
  · rw [List.getElem?_append_right le_rfl, Nat.sub_self, List.getElem?_cons_zero]
  · rw [List.set_append_right _ _ le_rfl, Nat.sub_self, List.set_cons_zero, front,
      List.append_assoc, List.singleton_append, List.length_append, List.length_append,
      List.length_singleton, List.length_singleton]

/-- A work-item that has asked for room when `k` others have. -/
def asked (N c0 k : ℕ) : Item :=
  if int32 ((c0 + k : ℕ) : ℤ) ≥ (N : ℤ) then .refused else .accepted

theorem int32_succ (a : ℕ) : int32 (int32 (a : ℤ) + 1) = int32 ((a + 1 : ℕ) : ℤ) := by
  rw [int32_int32_add]
  push_cast
  rfl

/-- The first `j` work-items ask for room. -/
theorem exec_ask (h : Initial p N c0 w0) (src : ℕ → Memory) {j : ℕ} (hj : j ≤ m) :
    Transition.exec (step src) (init p m) (List.range j) =
      some ⟨{ p with packet_num := int32 ((c0 + j : ℕ) : ℤ) },
        front m ((List.range j).map (asked N c0))⟩ := by
  have hN := h.int
  have hle := h.le
  induction j with
  | zero =>
    have hcount : int32 ((c0 + 0 : ℕ) : ℤ) = p.packet_num := by
      rw [h.packet_num]
      exact int32_eq (by omega) (by omega)
    rw [hcount]
    rfl
  | succ j ih =>
    rw [List.range_succ, Transition.exec_append_eq_some]
    refine ⟨_, ih (by omega), Transition.exec_cons_eq_some.mpr ⟨_, ?_, rfl⟩⟩
    have hlength : ((List.range j).map (asked N c0)).length = j := by
      rw [List.length_map, List.length_range]
    obtain ⟨hget, hset⟩ := front_set (m := m) ((List.range j).map (asked N c0))
      (by omega) (asked N c0 j)
    rw [hlength] at hget hset
    have hadvance : advance { p with packet_num := int32 ((c0 + j : ℕ) : ℤ) } (src j) .start =
        some ({ p with packet_num := int32 ((c0 + (j + 1) : ℕ) : ℤ) }, asked N c0 j) := by
      simp only [advance, asked, h.pack_num, int32_succ, Nat.add_assoc]
    rw [step_of_advance hget hadvance, hset, List.map_append, List.map_singleton]

/-- Of the first `j`, those are accepted that there is room for, -/
theorem le_room_asked (hN : N < 2 ^ 31) (j : ℕ) :
    min j (N - c0) ≤ total room ((List.range j).map (asked N c0)) := by
  induction j with
  | zero => exact Nat.zero_le _
  | succ j ih =>
    rw [List.range_succ, List.map_append, total, List.map_append, List.sum_append]
    rw [total] at ih
    by_cases hj : j < N - c0
    · have hasked : asked N c0 j = .accepted := by
        rw [asked, int32_eq (by omega) (by omega), if_neg (by omega)]
      rw [List.map_singleton, List.map_singleton, hasked, List.sum_singleton]
      show _ ≤ _ + 1
      omega
    · omega

theorem int32_overflow : int32 ((2 ^ 31 : ℕ) : ℤ) = -2 ^ 31 := by decide

/-- and one more when the count overflows. -/
theorem asked_overflow {k : ℕ} (hk : c0 + k = 2 ^ 31) : asked N c0 k = .accepted := by
  rw [asked, hk, int32_overflow, if_neg (by omega)]

theorem total_append {M : Type} [AddCommMonoid M] (f : Item → M) (items items' : List Item) :
    total f (items ++ items') = total f items + total f items' := by
  rw [total, List.map_append, List.sum_append]
  rfl

theorem total_front {M : Type} [AddCommMonoid M] {f : Item → M} (hf : f .start = 0)
    (items : List Item) : total f (front m items) = total f items := by
  rw [front, total_append, total_start hf, add_zero]

/-- A work-item that has taken an index when `k` others have. -/
def took (N w0 k : ℕ) : Item :=
  if int32 ((w0 + k : ℕ) : ℤ) = int32 ((N : ℤ) - 1) then .wrapping (int32 ((w0 + k : ℕ) : ℤ))
  else .copying (int32 ((w0 + k : ℕ) : ℤ))

theorem taken_took (N w0 k : ℕ) :
    taken N (took N w0 k) = {(int32 ((w0 + k : ℕ) : ℤ)).tmod N} := by
  rw [took]
  split <;> rfl

/-- The first `j` work-items take an index, and none wraps it. -/
theorem exec_take (h : Initial p N c0 w0) (src : ℕ → Memory) {j : ℕ} (hj : j ≤ min m (N - c0)) :
    Transition.exec (step src) (init p m) ((List.range j).flatMap fun k => [k, k]) =
      some ⟨{ p with
          packet_num := int32 ((c0 + j : ℕ) : ℤ), write_ptr := int32 ((w0 + j : ℕ) : ℤ) },
        front m ((List.range j).map (took N w0))⟩ := by
  have hN := h.int
  have hle := h.le
  have hlt := h.lt
  induction j with
  | zero =>
    have hcount : int32 ((c0 + 0 : ℕ) : ℤ) = p.packet_num := by
      rw [h.packet_num]
      exact int32_eq (by omega) (by omega)
    have hindex : int32 ((w0 + 0 : ℕ) : ℤ) = p.write_ptr := by
      rw [h.write_ptr]
      exact int32_eq (by omega) (by omega)
    rw [hcount, hindex]
    rfl
  | succ j ih =>
    have hlength : ((List.range j).map (took N w0)).length = j := by
      rw [List.length_map, List.length_range]
    have hstart : step src ⟨{ p with
          packet_num := int32 ((c0 + j : ℕ) : ℤ), write_ptr := int32 ((w0 + j : ℕ) : ℤ) },
        front m ((List.range j).map (took N w0))⟩ j = some ⟨{ p with
          packet_num := int32 ((c0 + (j + 1) : ℕ) : ℤ), write_ptr := int32 ((w0 + j : ℕ) : ℤ) },
        front m ((List.range j).map (took N w0) ++ [.accepted])⟩ := by
      obtain ⟨hget, hset⟩ := front_set (m := m) ((List.range j).map (took N w0))
        (by omega) .accepted
      rw [hlength] at hget hset
      have hroom : ¬ int32 ((c0 + j : ℕ) : ℤ) ≥ (N : ℤ) := by
        rw [int32_eq (by omega) (by omega)]
        omega
      have hadvance : advance { p with
            packet_num := int32 ((c0 + j : ℕ) : ℤ), write_ptr := int32 ((w0 + j : ℕ) : ℤ) }
          (src j) .start = some ({ p with
            packet_num := int32 ((c0 + (j + 1) : ℕ) : ℤ), write_ptr := int32 ((w0 + j : ℕ) : ℤ) },
          .accepted) := by
        simp only [advance, h.pack_num, if_neg hroom, int32_succ, Nat.add_assoc]
      rw [step_of_advance hget hadvance, hset]
    have htake : step src ⟨{ p with
          packet_num := int32 ((c0 + (j + 1) : ℕ) : ℤ), write_ptr := int32 ((w0 + j : ℕ) : ℤ) },
        front m ((List.range j).map (took N w0) ++ [.accepted])⟩ j = some ⟨{ p with
          packet_num := int32 ((c0 + (j + 1) : ℕ) : ℤ)
          write_ptr := int32 ((w0 + (j + 1) : ℕ) : ℤ) },
        front m ((List.range j).map (took N w0) ++ [took N w0 j])⟩ := by
      obtain ⟨hget, hset⟩ := front_set_last (m := m) ((List.range j).map (took N w0))
        .accepted (took N w0 j)
      rw [hlength] at hget hset
      have hadvance : advance { p with
            packet_num := int32 ((c0 + (j + 1) : ℕ) : ℤ), write_ptr := int32 ((w0 + j : ℕ) : ℤ) }
          (src j) .accepted = some ({ p with
            packet_num := int32 ((c0 + (j + 1) : ℕ) : ℤ)
            write_ptr := int32 ((w0 + (j + 1) : ℕ) : ℤ) }, took N w0 j) := by
        simp only [advance, took, h.pack_num, int32_succ, Nat.add_assoc]
      rw [step_of_advance hget hadvance, hset]
    rw [List.range_succ, List.flatMap_append, Transition.exec_append_eq_some, List.map_append]
    exact ⟨_, ih (by omega), Transition.exec_cons_eq_some.mpr ⟨_, hstart,
      Transition.exec_cons_eq_some.mpr ⟨_, htake, rfl⟩⟩⟩

end Overflow

/-! ### The result -/

/-- Where a counter can overflow, some order of the operations is bad. -/
theorem bounded_of_filled {p : Pipe} {N c0 w0 : ℕ} (h : Initial p N c0 w0) (src : ℕ → Memory)
    {m : ℕ} (hall : ∀ schedule s, Transition.exec (step src) (init p m) schedule = some s →
      Complete s → Filled N c0 w0 (min m (N - c0)) s) : Bounded N c0 w0 m := by
  have hN := h.int
  have hle := h.le
  have hlt := h.lt
  refine ⟨?_, ?_⟩
  · by_contra hcount
    -- the count overflows while all wait, and one work-item too many is let in
    obtain ⟨k, hk⟩ : ∃ k, c0 + k = 2 ^ 31 := ⟨2 ^ 31 - c0, by omega⟩
    have hask := exec_ask h src (m := m) (j := k + 1) (by omega)
    obtain ⟨rest, t, hrest, ht⟩ := exists_complete src _
    have hfilled := hall _ t (Transition.exec_append_eq_some.mpr ⟨_, hask, hrest⟩) ht
    have hreturned := hfilled.returned
    rw [countP_ret ht] at hreturned
    have hgrows := exec_grows (N := N) hrest
    have hroom : total room (front m ((List.range (k + 1)).map (asked N c0))) ≤
        total room t.items := hgrows.room ((pack_num_set p _ p.write_ptr).trans h.pack_num)
    rw [total_front rfl, List.range_succ, List.map_append, total_append, List.map_singleton,
      asked_overflow hk] at hroom
    have hasked : min k (N - c0) ≤ total room ((List.range k).map (asked N c0)) :=
      le_room_asked hN k
    have hone : total room [.accepted] = 1 := rfl
    omega
  · by_contra hindex
    -- the index overflows while the one that passed the end waits
    obtain ⟨k, hk⟩ : ∃ k, w0 + k = 2 ^ 31 := ⟨2 ^ 31 - w0, by omega⟩
    have htake := exec_take h src (m := m) (j := k + 1) (by omega)
    obtain ⟨rest, t, hrest, ht⟩ := exists_complete src _
    have hfilled := hall _ t (Transition.exec_append_eq_some.mpr ⟨_, htake, hrest⟩) ht
    have hgrows := exec_grows (N := N) hrest
    have htaken : total (taken N) (front m ((List.range (k + 1)).map (took N w0))) ≤
        total (taken N) t.items := hgrows.taken ((pack_num_set p _ _).trans h.pack_num)
    rw [total_front rfl, List.range_succ, List.map_append, total_append, List.map_singleton,
      ← coe_slots ht] at htaken
    have hmem : (-2 ^ 31 : ℤ).tmod N ∈ slots t := by
      refine Multiset.mem_of_le htaken (Multiset.mem_add.mpr (.inr ?_))
      rw [total, List.map_singleton, List.sum_singleton, taken_took, hk, int32_overflow]
      exact Multiset.mem_singleton_self _
    obtain ⟨k', -, heq⟩ := (hfilled.slots _).mp hmem
    -- it has wrapped to a multiple of the capacity, then
    have hmod : ((2 ^ 31 : ℕ) : ℤ).tmod N = ((2 ^ 31 % N : ℕ) : ℤ) := (Int.ofNat_tmod _ _).symm
    have hneg : (-2 ^ 31 : ℤ).tmod N = -((2 ^ 31 % N : ℕ) : ℤ) := by
      have hcast : (-2 ^ 31 : ℤ) = -((2 ^ 31 : ℕ) : ℤ) := by norm_num
      rw [hcast, Int.neg_tmod, hmod]
    have hone : 2 ^ 31 % N = 2 ^ 31 - N := by
      rw [Nat.mod_eq_sub_mod (by omega), Nat.mod_eq_of_lt (by omega)]
    rw [hneg, hone] at heq
    omega

/-- The writers fill the next slots in every order of their operations iff neither the number of
packets nor the index can overflow. -/
theorem writers_iff {p : Pipe} {N c0 w0 : ℕ} (h : Initial p N c0 w0) (src : ℕ → Memory) (m : ℕ) :
    (∀ schedule s, Transition.exec (step src) (init p m) schedule = some s → Complete s →
        Filled N c0 w0 (min m (N - c0)) s) ↔ Bounded N c0 w0 m := by
  constructor
  · exact bounded_of_filled h src
  · intro hb schedule s hexec hs
    exact filled_of_inv h (Transition.exec_invariant (step_inv h hb) hexec (inv_init h m)) hs

theorem initial_new : Initial (cl_mem_new_pipe 4 1 fun _ => 0) 1 0 0 :=
  ⟨by decide, by decide, by decide, by decide, by decide, by decide, by decide⟩

/-- Three writers and room for one. -/
theorem writers_three : Bounded 1 0 0 3 ∧ ∀ schedule s,
    Transition.exec (step fun _ _ => 7) (init (cl_mem_new_pipe 4 1 fun _ => 0) 3) schedule =
        some s → Complete s → Filled 1 0 0 (min 3 (1 - 0)) s := by
  have hb : Bounded 1 0 0 3 := ⟨by decide, by decide⟩
  exact ⟨hb, (writers_iff initial_new (fun _ _ => 7) 3).mpr hb⟩

/-- As many writers as make the count negative. -/
theorem not_filled_overflow : ¬ ∀ schedule s,
    Transition.exec (step fun _ _ => 7) (init (cl_mem_new_pipe 4 1 fun _ => 0) (2 ^ 31 + 1))
        schedule = some s → Complete s → Filled 1 0 0 (min (2 ^ 31 + 1) (1 - 0)) s := by
  intro hall
  have hcount := (bounded_of_filled initial_new (fun _ _ => 7) hall).count
  omega

end PipeWriters

end Runtime
