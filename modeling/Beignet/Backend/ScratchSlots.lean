/-
Scratch slots of spilled registers (`allocateScratchForSpilled`, `gen_reg_allocation.cpp`).

The intervals of the spilled registers are walked by their starts; a second cursor walks
them by their ends and gives back at most one slot for each register that is placed.  A slot
that a register needs is one whose owner does not end before the register starts, and such
an owner has not been passed by the second cursor.

* `expire_spec`, `assign_spec` — what one turn of the loop does.
* `Low.allocate` — a slot for each register that fits in the memory is found.
* `loop_spec` — the invariant along the loop.
* **`scratch_slots_apart`** — the calls of the allocator are in order, and registers that
  live together have disjoint slots.

The orders are any that `std::sort` may leave.  Their validation against the sorted pointers
is left out: it is about the orders alone.
-/
import Beignet.Backend.AllocatorInvariant
import Beignet.Backend.IntervalStore

namespace Backend

namespace Scratch

open IntervalStore

/-- The families that `spillReg` takes. -/
inductive SpillFamily where
  | FAMILY_DWORD | FAMILY_QWORD

def getFamilySize : SpillFamily → ℤ
  | .FAMILY_DWORD => 4
  | .FAMILY_QWORD => 8

/-- The spilled registers of a kernel and the scratch memory that there is. -/
structure Spilled where
  /-- the intervals of `spilledRegs`, a map with the registers as its keys -/
  intervals : List GenRegInterval
  nodup : (intervals.map GenRegInterval.reg).Nodup
  family : ℕ → SpillFamily
  simdWidth : ℤ
  simdWidth_pos : 0 < simdWidth
  scratchSize : ℤ
  scratchSize_pos : 0 < scratchSize

/-- A call of the scratch allocator on behalf of a register. -/
inductive Event where
  | allocate (reg : ℕ) (addr : ℤ)
  | deallocate (reg : ℕ) (addr : ℤ)

/-- The allocator, and what its calls have done. -/
structure State where
  /-- `SpillRegTag::addr` -/
  addr : ℕ → ℤ
  scratchAllocator : SimpleAllocator
  toExpire : ℕ
  /-- the calls so far -/
  events : List Event

variable (S : Spilled)

/-- How many bytes a register takes. -/
def Spilled.size (reg : ℕ) : ℤ := getFamilySize (S.family reg) * S.simdWidth

/-- `spillReg` has left no addresses, and `startNewCG` an allocator that is unused. -/
def Spilled.init : State :=
  ⟨fun _ => -1, SimpleAllocator.new 0 S.scratchSize, 0, []⟩

/-- The part of the loop that gives back a slot; `none` stands for a failed assertion of the
allocator or a place behind the end of the order. -/
def expire (byEnd : List GenRegInterval) (cur : GenRegInterval) (s : State) : Option State :=
  byEnd[s.toExpire]?.bind fun exp =>
    if exp.maxID < cur.minID then
      if s.addr exp.reg ≠ -1 then
        (s.scratchAllocator.deallocate (s.addr exp.reg)).map fun a =>
          { s with
            scratchAllocator := a
            toExpire := s.toExpire + 1
            events := s.events ++ [.deallocate exp.reg (s.addr exp.reg)] }
      else some { s with toExpire := s.toExpire + 1 }
    else some s

/-- The part of the loop that takes a slot, and whether the loop goes on. -/
def Spilled.assign (cur : GenRegInterval) (s : State) : Option (State × Bool) :=
  if cur.minID = cur.maxID then
    some ({ s with addr := Function.update s.addr cur.reg (-1) }, true)
  else
    (s.scratchAllocator.allocate (S.size cur.reg) 32 true).map fun (a, offset) =>
      ({ s with
          addr := Function.update s.addr cur.reg offset
          scratchAllocator := a
          events := if offset = -1 then s.events else s.events ++ [.allocate cur.reg offset] },
        decide (offset ≠ -1))

def Spilled.loop (byEnd : List GenRegInterval) :
    List GenRegInterval → State → Option (State × Bool)
  | [], s => some (s, true)
  | cur :: rest, s =>
    (expire byEnd cur s).bind fun s =>
      (S.assign cur s).bind fun (s, ok) => if ok then loop byEnd rest s else some (s, false)

def Spilled.allocateScratchForSpilled (byStart byEnd : List GenRegInterval) :
    Option (State × Bool) :=
  S.loop byEnd byStart S.init

/-! ### Events in order -/

/-- A register takes a slot for the first time, or gives back the slot that it took for the
first time. -/
def Follows (pre : List Event) : Event → Prop
  | .allocate reg _ => ∀ addr, .allocate reg addr ∉ pre
  | .deallocate reg addr => .allocate reg addr ∈ pre ∧ ∀ addr', .deallocate reg addr' ∉ pre

def InOrder (events : List Event) : Prop :=
  ∀ pre e post, events = pre ++ e :: post → Follows pre e

theorem InOrder.append {events : List Event} {e : Event} (h : InOrder events)
    (he : Follows events e) : InOrder (events ++ [e]) := by
  intro pre e' post heq
  rcases List.eq_nil_or_concat post with rfl | ⟨post, last, rfl⟩
  · obtain ⟨hpre, hlast⟩ := List.append_inj' heq rfl
    rw [← hpre, ← List.singleton_inj.mp hlast]
    exact he
  · rw [List.concat_eq_append, ← List.cons_append, ← List.append_assoc] at heq
    exact h pre e' post (List.append_inj' heq rfl).1

/-! ### The invariant -/

variable {S}

theorem Spilled.size_pos (reg : ℕ) : 0 < S.size reg := by
  have := S.simdWidth_pos
  rw [Spilled.size]
  cases S.family reg <;> rw [getFamilySize] <;> omega

/-- The two are alive at one place at least. -/
def Overlap (i j : GenRegInterval) : Prop := i.minID ≤ j.maxID ∧ j.minID ≤ i.maxID

/-- The slots have no byte in common. -/
def Spilled.Apart (S : Spilled) (s : State) (i j : GenRegInterval) : Prop :=
  s.addr i.reg + S.size i.reg ≤ s.addr j.reg ∨ s.addr j.reg + S.size j.reg ≤ s.addr i.reg

/-- The register has given back its slot. -/
def State.Freed (s : State) (reg : ℕ) : Prop := ∃ addr, Event.deallocate reg addr ∈ s.events

/-- The register has a slot and keeps it. -/
def State.Holds (s : State) (reg : ℕ) : Prop := s.addr reg ≠ -1 ∧ ¬ s.Freed reg

/-- What holds with the intervals `done` behind the first cursor and `rest` before it. -/
structure Inv (S : Spilled) (byEnd done rest : List GenRegInterval) (s : State) : Prop where
  free : ∃ l, SimpleAllocator.Inv 0 S.scratchSize s.scratchAllocator l
  unset : ∀ i ∈ rest, s.addr i.reg = -1
  inside : ∀ i ∈ done, s.addr i.reg ≠ -1 →
    0 ≤ s.addr i.reg ∧ s.addr i.reg + S.size i.reg ≤ S.scratchSize
  held : ∀ i ∈ done, s.Holds i.reg →
    s.scratchAllocator.allocatedBlocks (s.addr i.reg) = some (S.size i.reg)
  distinct : ∀ i ∈ done, ∀ j ∈ done, i.reg ≠ j.reg → s.Holds i.reg → s.Holds j.reg →
    s.addr i.reg ≠ s.addr j.reg
  apart : ∀ i ∈ done, ∀ j ∈ done, i.reg ≠ j.reg → Overlap i j → s.addr i.reg ≠ -1 →
    s.addr j.reg ≠ -1 → S.Apart s i j
  /-- what is given back ends before all that is to come -/
  passed : ∀ i ∈ done, s.Freed i.reg → ∀ r ∈ rest, i.maxID < r.minID
  /-- the second cursor is behind what is given back -/
  expired : ∀ reg, s.Freed reg → reg ∈ (byEnd.take s.toExpire).map GenRegInterval.reg
  taken : ∀ i ∈ done, s.addr i.reg ≠ -1 → .allocate i.reg (s.addr i.reg) ∈ s.events
  owned : ∀ reg addr, .allocate reg addr ∈ s.events ∨ .deallocate reg addr ∈ s.events →
    reg ∈ done.map GenRegInterval.reg
  inOrder : InOrder s.events

/-- The bytes of a slot for each of the registers, without those that live at one place. -/
def Spilled.need (S : Spilled) (is : List GenRegInterval) : ℤ :=
  (is.map fun i => if i.minID = i.maxID then 0 else S.size i.reg).sum

/-- The slots that are taken end before the bytes that a slot for each register needs. -/
def Low (S : Spilled) (done : List GenRegInterval) (s : State) : Prop :=
  ∀ o sz, s.scratchAllocator.allocatedBlocks o = some sz → o + sz ≤ S.need done

theorem Spilled.need_append (is js : List GenRegInterval) :
    S.need (is ++ js) = S.need is + S.need js := by
  rw [Spilled.need, List.map_append, List.sum_append]
  rfl

theorem Spilled.need_nonneg (is : List GenRegInterval) : 0 ≤ S.need is := by
  refine List.sum_nonneg fun x hx => ?_
  obtain ⟨i, -, rfl⟩ := List.mem_map.mp hx
  have := S.size_pos i.reg
  split <;> omega

theorem Spilled.dvd_need (hwidth : 8 ∣ S.simdWidth) (is : List GenRegInterval) :
    32 ∣ S.need is := by
  refine List.dvd_sum fun x hx => ?_
  obtain ⟨i, -, rfl⟩ := List.mem_map.mp hx
  split
  · exact dvd_zero _
  · rw [Spilled.size]
    cases S.family i.reg <;> rw [getFamilySize] <;> omega

/-! ### One turn -/

section Turn

variable {byEnd done rest : List GenRegInterval} {cur : GenRegInterval} {s : State}

/-- Intervals of one register are one interval. -/
theorem Spilled.eq_of_reg {i j : GenRegInterval} (hi : i ∈ S.intervals) (hj : j ∈ S.intervals)
    (h : i.reg = j.reg) : i = j :=
  List.inj_on_of_nodup_map S.nodup hi hj h

/-- A register in front of the second cursor has not given back its slot. -/
theorem Inv.not_freed (h : Inv S byEnd done rest s) (hends : byEnd.Perm S.intervals)
    {exp : GenRegInterval} (hexp : byEnd[s.toExpire]? = some exp) : ¬ s.Freed exp.reg := by
  intro hfreed
  have hnodup : (byEnd.map GenRegInterval.reg).Nodup := (hends.map _).nodup_iff.mpr S.nodup
  obtain ⟨hlt, rfl⟩ := List.getElem?_eq_some_iff.mp hexp
  rw [← List.take_append_drop s.toExpire byEnd, List.map_append, List.nodup_append] at hnodup
  refine hnodup.2.2 _ (h.expired _ hfreed) _ ?_ rfl
  rw [← List.getElem_cons_drop (h := hlt)]
  exact List.mem_map_of_mem List.mem_cons_self

theorem take_map_mono {k k' : ℕ} (h : k ≤ k') {reg : ℕ}
    (hreg : reg ∈ (byEnd.take k).map GenRegInterval.reg) :
    reg ∈ (byEnd.take k').map GenRegInterval.reg :=
  List.map_subset _ (List.take_subset_take_left byEnd h) hreg

/-- The second cursor goes on. -/
theorem Inv.skip (h : Inv S byEnd done rest s) :
    Inv S byEnd done rest { s with toExpire := s.toExpire + 1 } where
  free := h.free
  unset := h.unset
  inside := h.inside
  held := h.held
  distinct := h.distinct
  apart := h.apart
  passed := h.passed
  expired := fun reg hreg => take_map_mono (Nat.le_succ _) (h.expired reg hreg)
  taken := h.taken
  owned := h.owned
  inOrder := h.inOrder

/-- A slot that is held goes back. -/
theorem Inv.release (h : Inv S byEnd done rest s) {exp : GenRegInterval} (hexp : exp ∈ done)
    (hdone : ∀ i ∈ done, i ∈ S.intervals) (hat : byEnd[s.toExpire]? = some exp)
    (hholds : s.Holds exp.reg) (hpassed : ∀ r ∈ rest, exp.maxID < r.minID)
    {a : SimpleAllocator} (hfree : ∃ l, SimpleAllocator.Inv 0 S.scratchSize a l)
    (hblocks : a.allocatedBlocks =
      Function.update s.scratchAllocator.allocatedBlocks (s.addr exp.reg) none) :
    Inv S byEnd done rest
      { s with
        scratchAllocator := a
        toExpire := s.toExpire + 1
        events := s.events ++ [.deallocate exp.reg (s.addr exp.reg)] } := by
  set s' : State := { s with
    scratchAllocator := a
    toExpire := s.toExpire + 1
    events := s.events ++ [.deallocate exp.reg (s.addr exp.reg)] } with hs'
  have hfreed : ∀ reg, s'.Freed reg ↔ s.Freed reg ∨ reg = exp.reg := by
    intro reg
    simp [hs', State.Freed, exists_or]
  have hkept : ∀ reg, s'.Holds reg → s.Holds reg ∧ reg ≠ exp.reg := by
    intro reg ⟨haddr, hnot⟩
    rw [hfreed, not_or] at hnot
    exact ⟨⟨haddr, hnot.1⟩, hnot.2⟩
  refine
    { free := hfree
      unset := h.unset
      inside := h.inside
      held := ?_
      distinct := ?_
      apart := h.apart
      passed := ?_
      expired := ?_
      taken := fun i hi haddr => List.mem_append_left _ (h.taken i hi haddr)
      owned := ?_
      inOrder := ?_ }
  · intro i hi hholds'
    obtain ⟨hi', hne⟩ := hkept _ hholds'
    have hother := h.distinct i hi exp hexp hne hi' hholds
    show a.allocatedBlocks (s.addr i.reg) = _
    rw [hblocks, Function.update_of_ne hother]
    exact h.held i hi hi'
  · intro i hi j hj hij hholdsi hholdsj
    exact h.distinct i hi j hj hij (hkept _ hholdsi).1 (hkept _ hholdsj).1
  · intro i hi hi'
    rcases (hfreed _).mp hi' with hi' | heq
    · exact h.passed i hi hi'
    · rw [S.eq_of_reg (hdone i hi) (hdone exp hexp) heq]
      exact hpassed
  · intro reg hreg
    show reg ∈ (byEnd.take (s.toExpire + 1)).map GenRegInterval.reg
    rcases (hfreed _).mp hreg with hreg | rfl
    · exact take_map_mono (Nat.le_succ _) (h.expired reg hreg)
    · rw [List.take_add_one, hat]
      exact List.mem_map_of_mem (List.mem_append_right _ (List.mem_singleton_self _))
  · intro reg addr hevent
    simp only [hs', List.mem_append, List.mem_singleton, reduceCtorEq, or_false,
      Event.deallocate.injEq] at hevent
    rcases hevent with hevent | hevent | ⟨rfl, -⟩
    · exact h.owned reg addr (.inl hevent)
    · exact h.owned reg addr (.inr hevent)
    · exact List.mem_map_of_mem hexp
  · refine h.inOrder.append ⟨h.taken exp hexp hholds.1, ?_⟩
    intro addr hevent
    exact hholds.2 ⟨addr, hevent⟩

/-- The slot of the next register by its end goes back if it ends before `cur` starts. -/
theorem expire_spec (h : Inv S byEnd done (cur :: rest) s) (hends : byEnd.Perm S.intervals)
    (hsplit : (done ++ cur :: rest).Perm S.intervals)
    (hsorted : ∀ r ∈ rest, cur.minID ≤ r.minID) (hle : s.toExpire ≤ done.length) :
    ∃ s', expire byEnd cur s = some s' ∧ Inv S byEnd done (cur :: rest) s' ∧
      s'.addr = s.addr ∧ s'.toExpire ≤ done.length + 1 ∧ (Low S done s → Low S done s') := by
  have hlt : s.toExpire < byEnd.length := by
    rw [hends.length_eq, ← hsplit.length_eq, List.length_append, List.length_cons]
    omega
  have hexp : byEnd[s.toExpire]? = some byEnd[s.toExpire] := List.getElem?_eq_getElem hlt
  have hnot := h.not_freed hends hexp
  generalize byEnd[s.toExpire] = exp at hexp hnot
  have hmem : exp ∈ done ++ cur :: rest :=
    hsplit.mem_iff.mpr (hends.mem_iff.mp (List.mem_of_getElem? hexp))
  rw [expire, hexp, Option.bind_some]
  by_cases hbefore : exp.maxID < cur.minID
  · rw [if_pos hbefore]
    by_cases haddr : s.addr exp.reg ≠ -1
    · rw [if_pos haddr]
      -- only what has been placed has an address
      have hdone : exp ∈ done := by
        rcases List.mem_append.mp hmem with hdone | hrest
        · exact hdone
        · exact absurd (h.unset exp hrest) haddr
      have hpassed : ∀ r ∈ cur :: rest, exp.maxID < r.minID := by
        intro r hr
        rcases List.mem_cons.mp hr with rfl | hr
        · exact hbefore
        · exact lt_of_lt_of_le hbefore (hsorted r hr)
      obtain ⟨l, hl⟩ := h.free
      obtain ⟨a, l', ha, hl', hblocks⟩ :=
        SimpleAllocator.deallocate_spec hl (h.held exp hdone ⟨haddr, hnot⟩)
      have hin : ∀ i ∈ done, i ∈ S.intervals :=
        fun i hi => hsplit.mem_iff.mp (List.mem_append_left _ hi)
      rw [ha, Option.map_some]
      refine ⟨_, rfl, ?_, rfl, ?_, fun hlow o sz ho => ?_⟩
      · exact h.release hdone hin hexp ⟨haddr, hnot⟩ hpassed ⟨l', hl'⟩ hblocks
      · exact Nat.succ_le_succ hle
      · rw [hblocks, Function.update_apply] at ho
        split at ho
        · cases ho
        · exact hlow o sz ho
    · rw [if_neg haddr]
      exact ⟨_, rfl, h.skip, rfl, Nat.succ_le_succ hle, id⟩
  · rw [if_neg hbefore]
    exact ⟨s, rfl, h, rfl, Nat.le_succ_of_le hle, id⟩

theorem Inv.passed_append (h : Inv S byEnd done (cur :: rest) s)
    (hfresh : cur.reg ∉ done.map GenRegInterval.reg) :
    ∀ i ∈ done ++ [cur], s.Freed i.reg → ∀ r ∈ rest, i.maxID < r.minID := by
  intro i hi hfreed r hr
  rcases List.mem_append.mp hi with hi | hi
  · exact h.passed i hi hfreed r (List.mem_cons_of_mem _ hr)
  · -- `cur` has not taken a slot yet
    obtain ⟨addr, hevent⟩ := hfreed
    rw [List.mem_singleton.mp hi] at hevent
    exact absurd (h.owned _ addr (.inr hevent)) hfresh

theorem Inv.owned_append (h : Inv S byEnd done rest s) {reg : ℕ} {addr : ℤ}
    (hevent : .allocate reg addr ∈ s.events ∨ .deallocate reg addr ∈ s.events) :
    reg ∈ (done ++ [cur]).map GenRegInterval.reg := by
  rw [List.map_append]
  exact List.mem_append_left _ (h.owned reg addr hevent)

/-- The first cursor goes on, and `cur` stays without a slot. -/
theorem Inv.pass (h : Inv S byEnd done (cur :: rest) s)
    (hfresh : cur.reg ∉ done.map GenRegInterval.reg) :
    Inv S byEnd (done ++ [cur]) rest { s with addr := Function.update s.addr cur.reg (-1) } := by
  have hcur : s.addr cur.reg = -1 := h.unset cur List.mem_cons_self
  have haddr : Function.update s.addr cur.reg (-1) = s.addr :=
    Function.update_eq_self_iff.mpr hcur.symm
  have hdone : ∀ i ∈ done ++ [cur], s.addr i.reg ≠ -1 → i ∈ done := by
    intro i hi hset
    rcases List.mem_append.mp hi with hi | hi
    · exact hi
    · rw [List.mem_singleton.mp hi] at hset
      exact absurd hcur hset
  rw [haddr]
  exact
    { free := h.free
      unset := fun i hi => h.unset i (List.mem_cons_of_mem _ hi)
      inside := fun i hi hset => h.inside i (hdone i hi hset) hset
      held := fun i hi hholds => h.held i (hdone i hi hholds.1) hholds
      distinct := fun i hi j hj hij hi' hj' =>
        h.distinct i (hdone i hi hi'.1) j (hdone j hj hj'.1) hij hi' hj'
      apart := fun i hi j hj hij hov hi' hj' =>
        h.apart i (hdone i hi hi') j (hdone j hj hj') hij hov hi' hj'
      passed := h.passed_append hfresh
      expired := h.expired
      taken := fun i hi hset => h.taken i (hdone i hi hset) hset
      owned := fun reg addr hevent => h.owned_append hevent
      inOrder := h.inOrder }

/-- Tracked blocks at two places have no byte in common. -/
theorem blocks_apart {total : ℤ} {a : SimpleAllocator} {l : List (ℕ × Span)}
    (h : SimpleAllocator.Inv 0 total a l) {o o' size size' : ℤ}
    (ho : a.allocatedBlocks o = some size) (ho' : a.allocatedBlocks o' = some size')
    (hne : o ≠ o') : o + size ≤ o' ∨ o' + size' ≤ o := by
  have hpos := used_pos h.tiles ho
  have hpos' := used_pos h.tiles ho'
  by_contra hmeet
  rw [not_or] at hmeet
  -- the later of the two starts is a byte of both
  have hbyte : o ≤ max o o' ∧ max o o' < o + size := by omega
  have hbyte' : o' ≤ max o o' ∧ max o o' < o' + size' := by omega
  exact hne (used_unique h.tiles ho ho' hbyte hbyte')

/-- The first cursor goes on, and `cur` gets the slot at `o`. -/
theorem Inv.place (h : Inv S byEnd done (cur :: rest) s)
    (hfresh : ∀ i ∈ done ++ rest, i.reg ≠ cur.reg) {a : SimpleAllocator} {o : ℤ}
    {l : List (ℕ × Span)} (hfree : SimpleAllocator.Inv 0 S.scratchSize a l)
    (hnone : s.scratchAllocator.allocatedBlocks o = none)
    (hblocks : a.allocatedBlocks =
      Function.update s.scratchAllocator.allocatedBlocks o (some (S.size cur.reg)))
    (hlo : 0 ≤ o) (hhi : o + S.size cur.reg ≤ S.scratchSize) :
    Inv S byEnd (done ++ [cur]) rest
      { s with
        addr := Function.update s.addr cur.reg o
        scratchAllocator := a
        events := s.events ++ [.allocate cur.reg o] } := by
  set s' : State := { s with
    addr := Function.update s.addr cur.reg o
    scratchAllocator := a
    events := s.events ++ [.allocate cur.reg o] } with hs'
  have hnew : cur.reg ∉ done.map GenRegInterval.reg := by
    intro hmem
    obtain ⟨i, hi, heq⟩ := List.mem_map.mp hmem
    exact hfresh i (List.mem_append_left _ hi) heq
  have hself : s'.addr cur.reg = o := Function.update_self ..
  have hold : ∀ i ∈ done ++ rest, s'.addr i.reg = s.addr i.reg :=
    fun i hi => Function.update_of_ne (hfresh i hi) ..
  have hdone : ∀ i ∈ done, s'.addr i.reg = s.addr i.reg :=
    fun i hi => hold i (List.mem_append_left _ hi)
  have hfreed : ∀ reg, s'.Freed reg ↔ s.Freed reg := by
    intro reg
    simp [hs', State.Freed]
  have hholds : ∀ i ∈ done, s'.Holds i.reg → s.Holds i.reg := by
    intro i hi ⟨haddr, hnot⟩
    rw [hdone i hi] at haddr
    exact ⟨haddr, fun hf => hnot ((hfreed _).mpr hf)⟩
  -- a slot that is held is elsewhere
  have helse : ∀ i ∈ done, s.Holds i.reg → s.addr i.reg ≠ o := by
    intro i hi hi' heq
    have hheld := h.held i hi hi'
    rw [heq, hnone] at hheld
    cases hheld
  have hheld : ∀ i ∈ done, s.Holds i.reg →
      a.allocatedBlocks (s.addr i.reg) = some (S.size i.reg) := by
    intro i hi hi'
    rw [hblocks, Function.update_of_ne (helse i hi hi')]
    exact h.held i hi hi'
  have hcur : a.allocatedBlocks o = some (S.size cur.reg) := by
    rw [hblocks, Function.update_self]
  -- what lives together with `cur` is not passed, so it holds its slot
  have hapart : ∀ i ∈ done, cur.minID ≤ i.maxID → s.addr i.reg ≠ -1 →
      s.addr i.reg + S.size i.reg ≤ o ∨ o + S.size cur.reg ≤ s.addr i.reg := by
    intro i hi hlate hset
    have hi' : s.Holds i.reg :=
      ⟨hset, fun hf => absurd (h.passed i hi hf cur List.mem_cons_self) (not_lt.mpr hlate)⟩
    exact blocks_apart hfree (hheld i hi hi') hcur (helse i hi hi')
  refine
    { free := ⟨l, hfree⟩
      unset := ?_
      inside := ?_
      held := ?_
      distinct := ?_
      apart := ?_
      passed := ?_
      expired := fun reg hreg => h.expired reg ((hfreed reg).mp hreg)
      taken := ?_
      owned := ?_
      inOrder := ?_ }
  · intro i hi
    rw [hold i (List.mem_append_right _ hi)]
    exact h.unset i (List.mem_cons_of_mem _ hi)
  · intro i hi hset
    rcases List.mem_append.mp hi with hi | hi
    · rw [hdone i hi] at hset ⊢
      exact h.inside i hi hset
    · rw [List.mem_singleton.mp hi, hself]
      exact ⟨hlo, hhi⟩
  · intro i hi hi'
    show a.allocatedBlocks (s'.addr i.reg) = _
    rcases List.mem_append.mp hi with hi | hi
    · rw [hdone i hi]
      exact hheld i hi (hholds i hi hi')
    · rw [List.mem_singleton.mp hi, hself]
      exact hcur
  · intro i hi j hj hij hi' hj'
    rcases List.mem_append.mp hi with hi | hi <;> rcases List.mem_append.mp hj with hj | hj
    · rw [hdone i hi, hdone j hj]
      exact h.distinct i hi j hj hij (hholds i hi hi') (hholds j hj hj')
    · rw [List.mem_singleton.mp hj, hself, hdone i hi]
      exact helse i hi (hholds i hi hi')
    · rw [List.mem_singleton.mp hi, hself, hdone j hj]
      exact (helse j hj (hholds j hj hj')).symm
    · rw [List.mem_singleton.mp hi, List.mem_singleton.mp hj] at hij
      exact absurd rfl hij
  · intro i hi j hj hij hov hi' hj'
    rw [Spilled.Apart]
    rcases List.mem_append.mp hi with hi | hi <;> rcases List.mem_append.mp hj with hj | hj
    · rw [hdone i hi] at hi' ⊢
      rw [hdone j hj] at hj' ⊢
      exact h.apart i hi j hj hij hov hi' hj'
    · rw [List.mem_singleton.mp hj] at hov ⊢
      rw [hdone i hi] at hi' ⊢
      rw [hself]
      exact hapart i hi hov.2 hi'
    · rw [List.mem_singleton.mp hi] at hov ⊢
      rw [hdone j hj] at hj' ⊢
      rw [hself]
      exact (hapart j hj hov.1 hj').symm
    · rw [List.mem_singleton.mp hi, List.mem_singleton.mp hj] at hij
      exact absurd rfl hij
  · intro i hi hf
    exact h.passed_append hnew i hi ((hfreed _).mp hf)
  · intro i hi hset
    rcases List.mem_append.mp hi with hi | hi
    · rw [hdone i hi] at hset ⊢
      exact List.mem_append_left _ (h.taken i hi hset)
    · rw [List.mem_singleton.mp hi, hself]
      exact List.mem_append_right _ (List.mem_singleton_self _)
  · intro reg addr hevent
    simp only [hs', List.mem_append, List.mem_singleton, reduceCtorEq, or_false,
      Event.allocate.injEq] at hevent
    rcases hevent with (hevent | ⟨rfl, -⟩) | hevent
    · exact h.owned_append (.inl hevent)
    · exact List.mem_map_of_mem (List.mem_append_right _ (List.mem_singleton_self _))
    · exact h.owned_append (.inr hevent)
  · refine h.inOrder.append fun addr hevent => ?_
    exact hnew (h.owned _ addr (.inl hevent))

/-- The slot of `cur` is found where a slot for each register fits in the memory. -/
theorem Low.allocate (hlow : Low S done s) (h : Inv S byEnd done (cur :: rest) s)
    (hwidth : 8 ∣ S.simdWidth) (hlong : cur.minID ≠ cur.maxID)
    (hfits : S.need (done ++ [cur]) ≤ S.scratchSize) :
    ∃ a o, s.scratchAllocator.allocate (S.size cur.reg) 32 true = some (a, o) ∧ o ≠ -1 ∧
      ∀ o' sz, a.allocatedBlocks o' = some sz → o' + sz ≤ S.need (done ++ [cur]) := by
  have hneed : S.need (done ++ [cur]) = S.need done + S.size cur.reg := by
    rw [Spilled.need_append]
    simp [Spilled.need, hlong]
  have hsize := S.size_pos cur.reg
  obtain ⟨l, hl⟩ := h.free
  rw [hneed] at hfits ⊢
  obtain ⟨a, l', o, ha, -, -, hblocks, hlo, hhi⟩ := SimpleAllocator.allocate_room hl hsize
    (by decide : (0 : ℤ) < 32) (S.need_nonneg done) (S.dvd_need hwidth done) hfits hlow
  refine ⟨a, o, ha, by omega, fun o' sz ho' => ?_⟩
  rw [hblocks, Function.update_apply] at ho'
  split at ho'
  · next heq =>
    rw [heq, ← Option.some_inj.mp ho']
    exact hhi
  · have := hlow o' sz ho'
    omega

/-- Each register that lives at more than one place has a slot. -/
def Full (done : List GenRegInterval) (s : State) : Prop :=
  ∀ i ∈ done, i.minID ≠ i.maxID → s.addr i.reg ≠ -1

theorem Full.append (h : Full done s) {s' : State} (hnew : cur.reg ∉ done.map GenRegInterval.reg)
    {o : ℤ} (haddr : s'.addr = Function.update s.addr cur.reg o)
    (ho : cur.minID ≠ cur.maxID → o ≠ -1) : Full (done ++ [cur]) s' := by
  intro i hi hlong
  rw [haddr]
  rcases List.mem_append.mp hi with hi | hi
  · have hne : i.reg ≠ cur.reg := fun heq => hnew (heq ▸ List.mem_map_of_mem hi)
    rw [Function.update_of_ne hne]
    exact h i hi hlong
  · rw [List.mem_singleton.mp hi] at hlong ⊢
    rw [Function.update_self]
    exact ho hlong

/-- `cur` gets a slot unless it lives at one place only or no space is left. -/
theorem assign_spec (h : Inv S byEnd done (cur :: rest) s)
    (hsplit : (done ++ cur :: rest).Perm S.intervals) :
    ∃ s' ok, S.assign cur s = some (s', ok) ∧ Inv S byEnd (done ++ [cur]) rest s' ∧
      s'.toExpire = s.toExpire ∧ (ok = true → Full done s → Full (done ++ [cur]) s') ∧
      (8 ∣ S.simdWidth → Low S done s → S.need (done ++ [cur]) ≤ S.scratchSize →
        ok = true ∧ Low S (done ++ [cur]) s') := by
  have hnodup : ((done ++ cur :: rest).map GenRegInterval.reg).Nodup :=
    (hsplit.map _).nodup_iff.mpr S.nodup
  have hfresh : ∀ i ∈ done ++ rest, i.reg ≠ cur.reg := by
    intro i hi heq
    rw [(List.perm_middle.map _).nodup_iff, List.map_cons, List.nodup_cons] at hnodup
    exact hnodup.1 (heq ▸ List.mem_map_of_mem hi)
  have hnew : cur.reg ∉ done.map GenRegInterval.reg := by
    intro hmem
    obtain ⟨i, hi, heq⟩ := List.mem_map.mp hmem
    exact hfresh i (List.mem_append_left _ hi) heq
  rw [Spilled.assign]
  by_cases hpoint : cur.minID = cur.maxID
  · rw [if_pos hpoint]
    refine ⟨_, true, rfl, h.pass hnew, rfl, fun _ hfull => hfull.append hnew rfl ?_,
      fun _ hlow _ => ⟨rfl, fun o sz ho => (hlow o sz ho).trans ?_⟩⟩
    · exact fun hlong => absurd hpoint hlong
    · rw [Spilled.need_append]
      exact le_add_of_nonneg_right (S.need_nonneg _)
  · rw [if_neg hpoint]
    obtain ⟨l, hl⟩ := h.free
    rcases SimpleAllocator.allocate_spec hl (S.size_pos cur.reg) (by decide : (0 : ℤ) < 32) true
      with ⟨hfull, -⟩ | ⟨a, l', o, ha, hl', hnone, hblocks, hlo, hhi, -⟩
    · refine ⟨_, false, by rw [hfull]; rfl, h.pass hnew, rfl, fun hok => (by cases hok),
        fun hwidth hlow hfits => ?_⟩
      -- there would be room
      obtain ⟨a, o, ha, ho, -⟩ := hlow.allocate h hwidth hpoint hfits
      rw [hfull] at ha
      exact absurd (Prod.mk.inj (Option.some_inj.mp ha)).2.symm ho
    · have ho : o ≠ -1 := by omega
      rw [ha]
      simp only [Option.map_some, if_neg ho]
      refine ⟨_, _, rfl, h.place hfresh hl' hnone hblocks hlo (by omega), rfl, ?_,
        fun hwidth hlow hfits => ⟨decide_eq_true ho, ?_⟩⟩
      · exact fun _ hfull => hfull.append hnew rfl fun _ => ho
      · obtain ⟨a', o', ha', -, hlow'⟩ := hlow.allocate h hwidth hpoint hfits
        rw [ha] at ha'
        obtain ⟨rfl, -⟩ := Prod.mk.inj (Option.some_inj.mp ha')
        exact hlow'

end Turn

/-! ### The loop -/

theorem init_inv (byEnd byStart : List GenRegInterval) : Inv S byEnd [] byStart S.init where
  free := ⟨_, SimpleAllocator.new_inv 0 S.scratchSize_pos⟩
  unset := fun _ _ => rfl
  inside := fun _ hi => absurd hi List.not_mem_nil
  held := fun _ hi => absurd hi List.not_mem_nil
  distinct := fun _ hi => absurd hi List.not_mem_nil
  apart := fun _ hi => absurd hi List.not_mem_nil
  passed := fun _ hi => absurd hi List.not_mem_nil
  expired := fun _ ⟨_, hevent⟩ => absurd hevent List.not_mem_nil
  taken := fun _ hi => absurd hi List.not_mem_nil
  owned := fun _ _ hevent => hevent.elim (absurd · List.not_mem_nil) (absurd · List.not_mem_nil)
  inOrder := fun pre _ _ heq => by cases pre <;> cases heq

/-- The loop answers, with the invariant where it stops. -/
theorem loop_spec {byEnd : List GenRegInterval} (hends : byEnd.Perm S.intervals) :
    ∀ {rest done : List GenRegInterval} {s : State}, Inv S byEnd done rest s → Full done s →
      (done ++ rest).Perm S.intervals → (rest.Pairwise fun i j => i.minID ≤ j.minID) →
      s.toExpire ≤ done.length →
      ∃ s' ok done' rest', S.loop byEnd rest s = some (s', ok) ∧ Inv S byEnd done' rest' s' ∧
        (done' ++ rest').Perm S.intervals ∧ (ok = true → rest' = [] ∧ Full done' s') ∧
        (8 ∣ S.simdWidth → Low S done s → S.need (done ++ rest) ≤ S.scratchSize →
          ok = true) := by
  intro rest
  induction rest with
  | nil =>
    intro done s h hfull hsplit _ _
    exact ⟨s, true, done, [], rfl, h, hsplit, fun _ => ⟨rfl, hfull⟩, fun _ _ _ => rfl⟩
  | cons cur rest ih =>
    intro done s h hfull hsplit hsorted hle
    obtain ⟨hcur, hrest⟩ := List.pairwise_cons.mp hsorted
    obtain ⟨s1, h1, hinv1, haddr, hle1, hlow1⟩ := expire_spec h hends hsplit hcur hle
    obtain ⟨s2, ok, h2, hinv2, hexpire, hfull2, hroom2⟩ := assign_spec hinv1 hsplit
    have hfull1 : Full done s1 := by
      intro i hi hlong
      rw [haddr]
      exact hfull i hi hlong
    have hsplit' : (done ++ [cur] ++ rest).Perm S.intervals := by
      rw [List.append_assoc]
      exact hsplit
    have hassoc : S.need (done ++ cur :: rest) = S.need (done ++ [cur] ++ rest) := by
      rw [List.append_assoc, List.singleton_append]
    have hle : S.need (done ++ [cur]) ≤ S.need (done ++ cur :: rest) := by
      rw [hassoc, Spilled.need_append _ rest]
      exact le_add_of_nonneg_right (S.need_nonneg _)
    rw [Spilled.loop, h1, Option.bind_some, h2, Option.bind_some]
    cases ok with
    | true =>
      have hlength : s2.toExpire ≤ (done ++ [cur]).length := by
        rw [hexpire, List.length_append]
        exact hle1
      obtain ⟨s', ok, done', rest', hloop, hinv', hperm, hok, hroom⟩ :=
        ih hinv2 (hfull2 rfl hfull1) hsplit' hrest hlength
      refine ⟨s', ok, done', rest', hloop, hinv', hperm, hok, fun hwidth hlow hfits => ?_⟩
      have hlow2 := (hroom2 hwidth (hlow1 hlow) (hle.trans hfits)).2
      exact hroom hwidth hlow2 (hassoc ▸ hfits)
    | false =>
      refine ⟨s2, false, _, rest, rfl, hinv2, hsplit', fun hok => (by cases hok), ?_⟩
      exact fun hwidth hlow hfits => (hroom2 hwidth (hlow1 hlow) (hle.trans hfits)).1

/-- Whatever order `std::sort` leaves ties in: the allocator is called without a failure, and
each slot goes back once at most and behind its taking; a register that has a slot has it
inside the scratch memory, and two that live together have theirs apart; on success each
register has one that lives at more than one place; and it is a success where one slot for each
of them fits in the memory. -/
theorem scratch_slots_apart (S : Spilled) {starts ends : List (Fin S.intervals.length)}
    (hstarts : SortByStart S.intervals starts) (hends : SortByEnd S.intervals ends) :
    ∃ s ok, S.allocateScratchForSpilled (inOrder S.intervals starts)
        (inOrder S.intervals ends) = some (s, ok) ∧
      InOrder s.events ∧
      (∀ i ∈ S.intervals, s.addr i.reg ≠ -1 →
        0 ≤ s.addr i.reg ∧ s.addr i.reg + S.size i.reg ≤ S.scratchSize) ∧
      (∀ i ∈ S.intervals, ∀ j ∈ S.intervals, i.reg ≠ j.reg → Overlap i j →
        s.addr i.reg ≠ -1 → s.addr j.reg ≠ -1 → S.Apart s i j) ∧
      (ok = true → ∀ i ∈ S.intervals, i.minID < i.maxID → s.addr i.reg ≠ -1) ∧
      (8 ∣ S.simdWidth → S.need S.intervals ≤ S.scratchSize → ok = true) := by
  have hperm : ∀ {order : List (Fin S.intervals.length)},
      order.Perm (List.finRange S.intervals.length) →
        (inOrder S.intervals order).Perm S.intervals := by
    intro order horder
    have := horder.map S.intervals.get
    rwa [List.map_get_finRange] at this
  have hsorted : (inOrder S.intervals starts).Pairwise fun i j => i.minID ≤ j.minID :=
    List.pairwise_map.mpr (hstarts.sorted starts_compare)
  obtain ⟨s, ok, done, rest, hloop, hinv, hsplit, hok, hroom⟩ :=
    loop_spec (hperm hends.perm) (init_inv _ (inOrder S.intervals starts))
      (fun _ hi => absurd hi List.not_mem_nil) (hperm hstarts.perm) hsorted (Nat.zero_le _)
  -- what has an address is behind the cursor
  have hdone : ∀ i ∈ S.intervals, s.addr i.reg ≠ -1 → i ∈ done := by
    intro i hi hset
    rcases List.mem_append.mp (hsplit.mem_iff.mpr hi) with hi | hi
    · exact hi
    · exact absurd (hinv.unset i hi) hset
  refine ⟨s, ok, hloop, hinv.inOrder, ?_, ?_, ?_, fun hwidth hfits => ?_⟩
  · intro i hi hset
    exact hinv.inside i (hdone i hi hset) hset
  · intro i hi j hj hij hov hi' hj'
    exact hinv.apart i (hdone i hi hi') j (hdone j hj hj') hij hov hi' hj'
  · intro htrue i hi hlt
    obtain ⟨rfl, hfull⟩ := hok htrue
    rw [List.append_nil] at hsplit
    exact hfull i (hsplit.mem_iff.mpr hi) (ne_of_lt hlt)
  · refine hroom hwidth nofun ?_
    have hneed := ((hperm hstarts.perm).map fun i =>
      if i.minID = i.maxID then 0 else S.size i.reg).sum_eq
    exact hneed.le.trans hfits

/-- Three registers; the third can have the slot of the first. -/
def threeSpilled : Spilled where
  intervals := [⟨10, 0, 4⟩, ⟨11, 2, 8⟩, ⟨12, 6, 9⟩]
  nodup := by decide
  family := fun _ => .FAMILY_DWORD
  simdWidth := 8
  simdWidth_pos := by decide
  scratchSize := 12288
  scratchSize_pos := by decide

/-- The registers as they are listed. -/
def threeOrder : List (Fin threeSpilled.intervals.length) := List.finRange 3

theorem scratch_slots_apart_three :
    ∃ s, threeSpilled.allocateScratchForSpilled (inOrder threeSpilled.intervals threeOrder)
        (inOrder threeSpilled.intervals threeOrder) = some (s, true) ∧
      InOrder s.events ∧
      ∀ i ∈ threeSpilled.intervals, i.minID < i.maxID → s.addr i.reg ≠ -1 := by
  have hstarts : SortByStart threeSpilled.intervals threeOrder :=
    ⟨List.Perm.refl _, by decide⟩
  have hends : SortByEnd threeSpilled.intervals threeOrder :=
    ⟨List.Perm.refl _, by decide⟩
  obtain ⟨s, ok, hrun, horder, -, -, hfull, hroom⟩ :=
    scratch_slots_apart threeSpilled hstarts hends
  obtain rfl := hroom (by decide) (by decide)
  exact ⟨s, hrun, horder, hfull rfl⟩

end Scratch

end Backend
