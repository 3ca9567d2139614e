/-
Liveness of the registers of a function, `ir/liveness.cpp`.

The constructor of `Liveness` summarises each block by the registers it reads
before writing them and the registers it writes, puts the returning blocks in a
work set, and then alternates between draining the work set and refilling it
with a block that was never visited.  The sets behind the work list are ordered by
address, so the model leaves every choice of a block, and every order of
predecessors, open: a run is a list of `Action`s.

* `upwardUsed_initBlock`, `varKill_initBlock` — the summary of a block says what
  it should;
* `IsLiveness.spec` — what the clients of the analysis may rely on, also after the
  extension of the live ranges through loops that the Gen backend asks for;
* `computeLiveInOut_least` — every run is finite, no run gets stuck before the
  work is done, and every run that is done has computed the least solution of the
  liveness equations, so that all of them agree.
-/
import Beignet.Ir.Function
import Beignet.Lib.Transition

open Transition

namespace Ir.Liveness

structure BlockInfo where
  /-- used before a definition; in the end, alive at the entry of the block -/
  upwardUsed : Finset Register
  /-- alive at the exit of the block -/
  liveOut : Finset Register
  /-- defined in the block -/
  varKill : Finset Register

/-! ### The summary of a block -/

def initInstruction (info : BlockInfo) (insn : Instruction) : BlockInfo where
  upwardUsed := info.upwardUsed ∪ (insn.src.toFinset \ info.varKill)
  liveOut := info.liveOut
  varKill := info.varKill ∪ insn.dst.toFinset

def initBlock (bb : BasicBlock) : BlockInfo :=
  let info := bb.insns.foldl initInstruction ⟨∅, ∅, ∅⟩
  { info with liveOut := info.liveOut ∪ bb.liveout }

/-- What the constructor leaves in the information of a block before the
iterative analysis starts. -/
def initInfo (bb : BasicBlock) : BlockInfo :=
  let info := initBlock bb
  if bb.getLastInstruction.opcode = .OP_RET then
    { info with liveOut := insert Ocl.retVal info.liveOut }
  else info

theorem foldl_initInstruction_liveOut (insns : List Instruction) (info : BlockInfo) :
    (insns.foldl initInstruction info).liveOut = info.liveOut := by
  induction insns generalizing info with
  | nil => rfl
  | cons i insns ih => rw [List.foldl_cons, ih]; rfl

theorem mem_foldl_varKill {insns : List Instruction} {info : BlockInfo} {r : Register} :
    r ∈ (insns.foldl initInstruction info).varKill ↔
      r ∈ info.varKill ∨ ∃ i ∈ insns, r ∈ i.dst := by
  induction insns generalizing info with
  | nil => simp
  | cons i insns ih =>
    rw [List.foldl_cons, ih]
    simp only [initInstruction, Finset.mem_union, List.mem_toFinset, List.mem_cons,
      exists_eq_or_imp, or_assoc]

theorem mem_foldl_upwardUsed {insns : List Instruction} {info : BlockInfo} {r : Register} :
    r ∈ (insns.foldl initInstruction info).upwardUsed ↔
      r ∈ info.upwardUsed ∨ r ∉ info.varKill ∧
        ∃ pre i post, insns = pre ++ i :: post ∧ r ∈ i.src ∧ ∀ j ∈ pre, r ∉ j.dst := by
  induction insns generalizing info with
  | nil => simp
  | cons i insns ih =>
    rw [List.foldl_cons, ih]
    simp only [initInstruction, Finset.mem_union, Finset.mem_sdiff, List.mem_toFinset, not_or]
    constructor
    · rintro ((h | ⟨hr, hk⟩) | ⟨⟨hk, hi⟩, pre, j, post, rfl, hr, hpre⟩)
      · exact .inl h
      · exact .inr ⟨hk, [], i, insns, rfl, hr, by simp⟩
      · exact .inr ⟨hk, i :: pre, j, post, rfl, hr, by simpa [hi] using hpre⟩
    · rintro (h | ⟨hk, pre, j, post, heq, hr, hpre⟩)
      · exact .inl (.inl h)
      · rcases pre with _ | ⟨p, pre⟩
        · obtain ⟨rfl, rfl⟩ := List.cons_eq_cons.mp heq
          exact .inl (.inr ⟨hr, hk⟩)
        · obtain ⟨rfl, rfl⟩ := List.cons_eq_cons.mp heq
          refine .inr ⟨⟨hk, hpre i (by simp)⟩, pre, j, post, rfl, hr, ?_⟩
          exact fun q hq => hpre q (List.mem_cons_of_mem _ hq)

/-- The registers an `initBlock` summary calls upward used are those read by an
instruction that no definition precedes. -/
theorem upwardUsed_initBlock {bb : BasicBlock} {r : Register} :
    r ∈ (initBlock bb).upwardUsed ↔
      ∃ pre i post, bb.insns = pre ++ i :: post ∧ r ∈ i.src ∧ ∀ j ∈ pre, r ∉ j.dst := by
  simp [initBlock, mem_foldl_upwardUsed]

theorem varKill_initBlock {bb : BasicBlock} {r : Register} :
    r ∈ (initBlock bb).varKill ↔ ∃ i ∈ bb.insns, r ∈ i.dst := by
  simp [initBlock, mem_foldl_varKill]

@[simp] theorem initInfo_upwardUsed (bb : BasicBlock) :
    (initInfo bb).upwardUsed = (initBlock bb).upwardUsed := by
  unfold initInfo
  split <;> rfl

@[simp] theorem initInfo_varKill (bb : BasicBlock) :
    (initInfo bb).varKill = (initBlock bb).varKill := by
  unfold initInfo
  split <;> rfl

theorem mem_initInfo_liveOut {bb : BasicBlock} {r : Register} :
    r ∈ (initInfo bb).liveOut ↔
      r ∈ bb.liveout ∨ bb.getLastInstruction.opcode = .OP_RET ∧ r = Ocl.retVal := by
  unfold initInfo
  split <;> simp_all [initBlock, foldl_initInstruction_liveOut, or_comm]

/-! ### The work list -/

variable {fn : Function}

/-- The sets, and the blocks still to visit. -/
structure State (fn : Function) where
  liveness : fn.Block → BlockInfo
  workSet : Finset fn.Block
  unvisitBlocks : Finset fn.Block

/-- The state in which the constructor starts the iterative analysis. -/
def init (fn : Function) : State fn where
  liveness b := initInfo (fn.block b)
  workSet := Finset.univ.filter fun b => (fn.block b).getLastInstruction.opcode = .OP_RET
  unvisitBlocks := Finset.univ

/-- The block `b` leaves the two sets of blocks, and what survives it backwards is
added to what it uses upwards. -/
def State.enter (s : State fn) (b : fn.Block) : State fn :=
  let info := s.liveness b
  { liveness := Function.update s.liveness b
      { info with upwardUsed := info.upwardUsed ∪ (info.liveOut \ info.varKill) }
    workSet := s.workSet.erase b
    unvisitBlocks := s.unvisitBlocks.erase b }

/-- What block `b` needs from its predecessor `prev`. -/
def State.needs (s : State fn) (b prev : fn.Block) : Finset Register :=
  (s.liveness b).upwardUsed \ (fn.block prev).undefPhiRegs

/-- One predecessor of the block being visited.  The flag `isChanged` is not reset
between the predecessors. -/
def push (b : fn.Block) (acc : State fn × Bool) (prev : fn.Block) : State fn × Bool :=
  let s := acc.1
  let prevInfo := s.liveness prev
  let isChanged := acc.2 || !decide (s.needs b prev ⊆ prevInfo.liveOut)
  ({ liveness := Function.update s.liveness prev
      { prevInfo with liveOut := prevInfo.liveOut ∪ s.needs b prev }
     workSet := if isChanged then insert prev s.workSet else s.workSet
     unvisitBlocks := s.unvisitBlocks.erase b }, isChanged)

/-- One turn of the loop of `computeLiveInOut` on the block `b`, the predecessors
taken in the given order. -/
def visit (s : State fn) (b : fn.Block) (order : List fn.Block) : State fn :=
  (order.foldl (push b) (s.enter b, false)).1

/-- A turn of one of the loops. -/
inductive Action (fn : Function)
  /-- take `b` off the work set and go through its predecessors in this order -/
  | visit (b : fn.Block) (order : List fn.Block)
  /-- the work set is empty: put a block in it that was never visited -/
  | refill (b : fn.Block)

/-- A turn that is possible. -/
def next (s : State fn) : Action fn → Option (State fn)
  | .visit b order =>
    if b ∈ s.workSet ∧ order.Nodup ∧ order.toFinset = fn.predecessors b then
      some (visit s b order)
    else none
  | .refill b =>
    if s.workSet = ∅ ∧ b ∈ s.unvisitBlocks then
      some { s with workSet := {b} }
    else none

/-- The two loops of the constructor are over. -/
def Finished (s : State fn) : Prop := s.workSet = ∅ ∧ s.unvisitBlocks = ∅

/-! ### What one visit does -/

theorem push_upwardUsed (b : fn.Block) (acc : State fn × Bool) (prev p : fn.Block) :
    ((push b acc prev).1.liveness p).upwardUsed = (acc.1.liveness p).upwardUsed := by
  by_cases hp : p = prev
  · subst hp
    simp [push]
  · simp [push, hp]

theorem push_varKill (b : fn.Block) (acc : State fn × Bool) (prev p : fn.Block) :
    ((push b acc prev).1.liveness p).varKill = (acc.1.liveness p).varKill := by
  by_cases hp : p = prev
  · subst hp
    simp [push]
  · simp [push, hp]

theorem push_needs (b : fn.Block) (acc : State fn × Bool) (prev c p : fn.Block) :
    (push b acc prev).1.needs c p = acc.1.needs c p := by
  rw [State.needs, push_upwardUsed, State.needs]

theorem push_liveOut (b : fn.Block) (acc : State fn × Bool) (prev p : fn.Block) :
    ((push b acc prev).1.liveness p).liveOut =
      if p = prev then (acc.1.liveness p).liveOut ∪ acc.1.needs b p
      else (acc.1.liveness p).liveOut := by
  by_cases hp : p = prev
  · subst hp
    simp [push]
  · simp [push, hp]

theorem push_workSet_subset (b : fn.Block) (acc : State fn × Bool) (prev : fn.Block) :
    acc.1.workSet ⊆ (push b acc prev).1.workSet := by
  intro p hp
  simp only [push]
  split
  · exact Finset.mem_insert_of_mem hp
  · exact hp

theorem foldl_push_upwardUsed (b : fn.Block) (order : List fn.Block) (acc : State fn × Bool)
    (p : fn.Block) :
    ((order.foldl (push b) acc).1.liveness p).upwardUsed = (acc.1.liveness p).upwardUsed := by
  induction order generalizing acc with
  | nil => rfl
  | cons q order ih => rw [List.foldl_cons, ih, push_upwardUsed]

theorem foldl_push_varKill (b : fn.Block) (order : List fn.Block) (acc : State fn × Bool)
    (p : fn.Block) :
    ((order.foldl (push b) acc).1.liveness p).varKill = (acc.1.liveness p).varKill := by
  induction order generalizing acc with
  | nil => rfl
  | cons q order ih => rw [List.foldl_cons, ih, push_varKill]

theorem foldl_push_liveOut (b : fn.Block) (order : List fn.Block) (acc : State fn × Bool)
    (p : fn.Block) :
    ((order.foldl (push b) acc).1.liveness p).liveOut =
      if p ∈ order then (acc.1.liveness p).liveOut ∪ acc.1.needs b p
      else (acc.1.liveness p).liveOut := by
  induction order generalizing acc with
  | nil => simp
  | cons q order ih =>
    rw [List.foldl_cons, ih, push_needs, push_liveOut]
    by_cases hq : p = q
    · subst hq
      simp [Finset.union_assoc]
    · simp [hq]

theorem foldl_push_unvisitBlocks (b : fn.Block) (order : List fn.Block) (acc : State fn × Bool)
    (hb : b ∉ acc.1.unvisitBlocks) :
    (order.foldl (push b) acc).1.unvisitBlocks = acc.1.unvisitBlocks := by
  induction order generalizing acc with
  | nil => rfl
  | cons q order ih =>
    have hq : (push b acc q).1.unvisitBlocks = acc.1.unvisitBlocks := Finset.erase_eq_of_notMem hb
    rw [List.foldl_cons, ih _ (hq ▸ hb), hq]

theorem foldl_push_workSet_subset (b : fn.Block) (order : List fn.Block)
    (acc : State fn × Bool) : acc.1.workSet ⊆ (order.foldl (push b) acc).1.workSet := by
  induction order generalizing acc with
  | nil => exact Finset.Subset.refl _
  | cons q order ih => exact (push_workSet_subset b acc q).trans (ih _)

theorem mem_foldl_push_workSet {b : fn.Block} {order : List fn.Block} {acc : State fn × Bool}
    {p : fn.Block} (hp : p ∈ order) (h : ¬ acc.1.needs b p ⊆ (acc.1.liveness p).liveOut) :
    p ∈ (order.foldl (push b) acc).1.workSet := by
  induction order generalizing acc with
  | nil => exact absurd hp (by simp)
  | cons q order ih =>
    rw [List.foldl_cons]
    by_cases hq : p = q
    · subst hq
      refine foldl_push_workSet_subset b order _ ?_
      simp [push, h]
    · refine ih ((List.mem_cons.mp hp).resolve_left hq) ?_
      rwa [push_needs, push_liveOut, if_neg hq]

/-- When no predecessor lacks anything, the work set is left alone. -/
theorem foldl_push_workSet_eq {b : fn.Block} {order : List fn.Block} {acc : State fn × Bool}
    (hacc : acc.2 = false)
    (h : ∀ p ∈ order, acc.1.needs b p ⊆ (acc.1.liveness p).liveOut) :
    (order.foldl (push b) acc).1.workSet = acc.1.workSet := by
  induction order generalizing acc with
  | nil => rfl
  | cons q order ih =>
    have hq := h q (by simp)
    have hflag : (push b acc q).2 = false := by simp [push, hacc, hq]
    have hwork : (push b acc q).1.workSet = acc.1.workSet := by simp [push, hacc, hq]
    rw [List.foldl_cons, ih hflag, hwork]
    intro p hp
    rw [push_needs, push_liveOut]
    have := h p (List.mem_cons_of_mem _ hp)
    split
    · exact this.trans Finset.subset_union_left
    · exact this

/-- Everything a visit of `b` does to the state. -/
structure Visited (s : State fn) (b : fn.Block) (t : State fn) : Prop where
  varKill : ∀ p, (t.liveness p).varKill = (s.liveness p).varKill
  upwardUsed : ∀ p, p ≠ b → (t.liveness p).upwardUsed = (s.liveness p).upwardUsed
  upwardUsed_self : (t.liveness b).upwardUsed =
    (s.liveness b).upwardUsed ∪ ((s.liveness b).liveOut \ (s.liveness b).varKill)
  liveOut : ∀ p, (t.liveness p).liveOut =
    if b ∈ fn.successors p then (s.liveness p).liveOut ∪ t.needs b p
    else (s.liveness p).liveOut
  unvisitBlocks : t.unvisitBlocks = s.unvisitBlocks.erase b
  workSet : s.workSet.erase b ⊆ t.workSet
  changed : ∀ p, (t.liveness p).liveOut ≠ (s.liveness p).liveOut → p ∈ t.workSet
  unchanged : (∀ p, (t.liveness p).liveOut = (s.liveness p).liveOut) →
    t.workSet = s.workSet.erase b

theorem visit_spec {s : State fn} {b : fn.Block} {order : List fn.Block}
    (horder : order.toFinset = fn.predecessors b) : Visited s b (visit s b order) := by
  have hmem : ∀ p, p ∈ order ↔ b ∈ fn.successors p := fun p => by
    rw [← List.mem_toFinset, horder, Function.mem_predecessors]
  have hup : ∀ p, ((visit s b order).liveness p).upwardUsed =
      if p = b then (s.liveness b).upwardUsed ∪ ((s.liveness b).liveOut \ (s.liveness b).varKill)
      else (s.liveness p).upwardUsed := by
    intro p
    rw [visit, foldl_push_upwardUsed]
    by_cases hp : p = b
    · subst hp
      simp [State.enter]
    · simp [State.enter, hp]
  have hout : ∀ p, ((visit s b order).liveness p).liveOut =
      if b ∈ fn.successors p then (s.liveness p).liveOut ∪ (visit s b order).needs b p
      else (s.liveness p).liveOut := by
    intro p
    rw [State.needs, hup, if_pos rfl, visit, foldl_push_liveOut]
    by_cases hp : p = b
    · subst hp
      simp [State.enter, State.needs, hmem]
    · simp [State.enter, State.needs, hmem, hp]
  have hneeds : ∀ p, (s.enter b).needs b p = (visit s b order).needs b p := fun p => by
    simp [State.needs, hup, State.enter]
  have henter : ∀ p, ((s.enter b).liveness p).liveOut = (s.liveness p).liveOut := fun p => by
    by_cases hp : p = b
    · subst hp
      simp [State.enter]
    · simp [State.enter, hp]
  refine ⟨fun p => ?_, fun p hp => ?_, ?_, hout, ?_, ?_, fun p hp => ?_, fun h => ?_⟩
  · rw [visit, foldl_push_varKill]
    by_cases hp : p = b
    · subst hp
      simp [State.enter]
    · simp [State.enter, hp]
  · rw [hup, if_neg hp]
  · rw [hup, if_pos rfl]
  · exact foldl_push_unvisitBlocks b order _ (Finset.notMem_erase b _)
  · exact foldl_push_workSet_subset b order (s.enter b, false)
  · -- only a predecessor that lacked something can have changed
    rw [hout] at hp
    by_cases hb : b ∈ fn.successors p
    · rw [if_pos hb] at hp
      refine mem_foldl_push_workSet ((hmem p).mpr hb) fun hsub => hp ?_
      rw [hneeds, henter] at hsub
      exact Finset.union_eq_left.mpr hsub
    · exact absurd (if_neg hb) hp
  · refine foldl_push_workSet_eq rfl fun p hp => ?_
    have hp' := h p
    rw [hout, if_pos ((hmem p).mp hp)] at hp'
    rw [hneeds, henter]
    exact Finset.union_eq_left.mp hp'

theorem next_cases {s t : State fn} {a : Action fn} (h : next s a = some t) :
    (∃ b ∈ s.workSet, Visited s b t) ∨
    (s.workSet = ∅ ∧ ∃ b ∈ s.unvisitBlocks, t = { s with workSet := {b} }) := by
  cases a with
  | visit b order =>
    simp only [next, Option.ite_none_right_eq_some, Option.some_inj] at h
    obtain ⟨⟨hb, -, horder⟩, rfl⟩ := h
    exact .inl ⟨b, hb, visit_spec horder⟩
  | refill b =>
    simp only [next, Option.ite_none_right_eq_some, Option.some_inj] at h
    obtain ⟨⟨hw, hb⟩, rfl⟩ := h
    exact .inr ⟨hw, b, hb, rfl⟩

/-! ### The liveness equations -/

/-- A family of sets of registers at the entry and at the exit of every block. -/
abbrev LiveSets (fn : Function) := (fn.Block → Set Register) × (fn.Block → Set Register)

/-- The equations: `live.1` is alive at the entry of a block, `live.2` at its
exit. -/
structure IsSolution (fn : Function) (live : LiveSets fn) : Prop where
  liveIn : ∀ b, live.1 b =
    ↑(initBlock (fn.block b)).upwardUsed ∪ (live.2 b \ ↑(initBlock (fn.block b)).varKill)
  liveOut : ∀ b, live.2 b =
    ↑(fn.block b).liveout ∪
      {r | (fn.block b).getLastInstruction.opcode = .OP_RET ∧ r = Ocl.retVal} ∪
      ⋃ c ∈ fn.successors b, (live.1 c \ ↑(fn.block b).undefPhiRegs)

/-- The sets that `getLiveIn` and `getLiveOut` return. -/
def State.live (s : State fn) : LiveSets fn :=
  (fun b => ↑(s.liveness b).upwardUsed, fun b => ↑(s.liveness b).liveOut)

/-- Closed under what a visit adds. -/
structure Closed (fn : Function) (live : LiveSets fn) : Prop where
  upwardUsed : ∀ b, ↑(initBlock (fn.block b)).upwardUsed ⊆ live.1 b
  through : ∀ b, live.2 b \ ↑(initBlock (fn.block b)).varKill ⊆ live.1 b
  init : ∀ b, ↑(initInfo (fn.block b)).liveOut ⊆ live.2 b
  edge : ∀ b, ∀ c ∈ fn.successors b, live.1 c \ ↑(fn.block b).undefPhiRegs ⊆ live.2 b

theorem coe_initInfo_liveOut (bb : BasicBlock) :
    (↑(initInfo bb).liveOut : Set Register) =
      ↑bb.liveout ∪ {r | bb.getLastInstruction.opcode = .OP_RET ∧ r = Ocl.retVal} := by
  ext r
  simp [mem_initInfo_liveOut]

theorem IsSolution.closed {live : LiveSets fn} (h : IsSolution fn live) : Closed fn live where
  upwardUsed b := by
    rw [h.liveIn b]
    exact Set.subset_union_left
  through b := by
    rw [h.liveIn b]
    exact Set.subset_union_right
  init b := by
    rw [h.liveOut b, coe_initInfo_liveOut]
    exact Set.subset_union_left
  edge b c hc := by
    rw [h.liveOut b]
    exact (Set.subset_biUnion_of_mem (u := fun c => live.1 c \ ↑(fn.block b).undefPhiRegs)
      hc).trans Set.subset_union_right

/-! ### The invariant -/

/-- Every register in the sets has a reason to be there, and every block that is
neither in the work set nor unvisited has passed on all it needs. -/
structure Inv (s : State fn) : Prop where
  varKill : ∀ b, (s.liveness b).varKill = (initBlock (fn.block b)).varKill
  upwardUsed : ∀ b, (initBlock (fn.block b)).upwardUsed ⊆ (s.liveness b).upwardUsed
  liveOut : ∀ b, (initInfo (fn.block b)).liveOut ⊆ (s.liveness b).liveOut
  upwardUsed_from : ∀ b, (s.liveness b).upwardUsed ⊆
    (initBlock (fn.block b)).upwardUsed ∪ ((s.liveness b).liveOut \ (s.liveness b).varKill)
  liveOut_from : ∀ b, ∀ r ∈ (s.liveness b).liveOut, r ∈ (initInfo (fn.block b)).liveOut ∨
    ∃ c ∈ fn.successors b, r ∈ s.needs c b
  through : ∀ b ∉ s.workSet, b ∉ s.unvisitBlocks →
    (s.liveness b).liveOut \ (s.liveness b).varKill ⊆ (s.liveness b).upwardUsed
  edge : ∀ b ∉ s.workSet, b ∉ s.unvisitBlocks →
    ∀ p, b ∈ fn.successors p → s.needs b p ⊆ (s.liveness p).liveOut

theorem init_inv : Inv (init fn) where
  varKill b := initInfo_varKill _
  upwardUsed b := (initInfo_upwardUsed _).ge
  liveOut b := Finset.Subset.refl _
  upwardUsed_from b := by
    rw [show ((init fn).liveness b).upwardUsed = (initBlock (fn.block b)).upwardUsed from
      initInfo_upwardUsed _]
    exact Finset.subset_union_left
  liveOut_from b r hr := .inl hr
  through b _ hb := absurd (Finset.mem_univ b) hb
  edge b _ hb := absurd (Finset.mem_univ b) hb

theorem Visited.liveOut_subset {s t : State fn} {b : fn.Block} (h : Visited s b t)
    (p : fn.Block) : (s.liveness p).liveOut ⊆ (t.liveness p).liveOut := by
  rw [h.liveOut]
  split
  · exact Finset.subset_union_left
  · exact Finset.Subset.refl _

theorem Visited.upwardUsed_subset {s t : State fn} {b : fn.Block} (h : Visited s b t)
    (p : fn.Block) : (s.liveness p).upwardUsed ⊆ (t.liveness p).upwardUsed := by
  by_cases hp : p = b
  · subst hp
    rw [h.upwardUsed_self]
    exact Finset.subset_union_left
  · rw [h.upwardUsed p hp]

theorem Visited.needs_subset {s t : State fn} {b : fn.Block} (h : Visited s b t)
    (c p : fn.Block) : s.needs c p ⊆ t.needs c p :=
  Finset.sdiff_subset_sdiff (h.upwardUsed_subset c) (Finset.Subset.refl _)

/-- A block that is not pending after the visit of `b` either is `b`, or was not
pending before; in both cases its exit set did not change. -/
theorem Visited.pending {s t : State fn} {b c : fn.Block} (h : Visited s b t)
    (hw : c ∉ t.workSet) (hu : c ∉ t.unvisitBlocks) :
    (t.liveness c).liveOut = (s.liveness c).liveOut ∧
      (c = b ∨ c ≠ b ∧ c ∉ s.workSet ∧ c ∉ s.unvisitBlocks) := by
  refine ⟨by_contra fun hne => hw (h.changed c hne), ?_⟩
  by_cases hc : c = b
  · exact .inl hc
  · refine .inr ⟨hc, fun hcw => hw (h.workSet (Finset.mem_erase.mpr ⟨hc, hcw⟩)), fun hcu => ?_⟩
    exact hu (h.unvisitBlocks ▸ Finset.mem_erase.mpr ⟨hc, hcu⟩)

theorem Visited.inv {s t : State fn} {b : fn.Block} (h : Visited s b t) (hs : Inv s) :
    Inv t where
  varKill c := (h.varKill c).trans (hs.varKill c)
  upwardUsed c := (hs.upwardUsed c).trans (h.upwardUsed_subset c)
  liveOut c := (hs.liveOut c).trans (h.liveOut_subset c)
  upwardUsed_from c := by
    have hmono : (s.liveness c).liveOut \ (s.liveness c).varKill ⊆
        (t.liveness c).liveOut \ (t.liveness c).varKill := by
      rw [h.varKill]
      exact Finset.sdiff_subset_sdiff (h.liveOut_subset c) (Finset.Subset.refl _)
    have hold := (hs.upwardUsed_from c).trans (Finset.union_subset_union_right hmono)
    by_cases hc : c = b
    · subst hc
      rw [h.upwardUsed_self]
      exact Finset.union_subset hold (hmono.trans Finset.subset_union_right)
    · rw [h.upwardUsed c hc]
      exact hold
  liveOut_from p r hr := by
    have hold : r ∈ (s.liveness p).liveOut → r ∈ (initInfo (fn.block p)).liveOut ∨
        ∃ c ∈ fn.successors p, r ∈ t.needs c p := by
      intro hr
      rcases hs.liveOut_from p r hr with hr | ⟨c, hc, hr⟩
      · exact .inl hr
      · exact .inr ⟨c, hc, h.needs_subset c p hr⟩
    rw [h.liveOut] at hr
    split at hr
    · rename_i hb
      rcases Finset.mem_union.mp hr with hr | hr
      · exact hold hr
      · exact .inr ⟨b, hb, hr⟩
    · exact hold hr
  through c hw hu := by
    obtain ⟨hout, rfl | ⟨hc, hw', hu'⟩⟩ := h.pending hw hu
    · rw [hout, h.varKill, h.upwardUsed_self]
      exact Finset.subset_union_right
    · rw [hout, h.varKill, h.upwardUsed c hc]
      exact hs.through c hw' hu'
  edge c hw hu p hp := by
    obtain ⟨-, rfl | ⟨hc, hw', hu'⟩⟩ := h.pending hw hu
    · rw [h.liveOut p, if_pos hp]
      exact Finset.subset_union_right
    · have hneeds : t.needs c p = s.needs c p := by
        rw [State.needs, h.upwardUsed c hc, State.needs]
      rw [hneeds]
      exact (hs.edge c hw' hu' p hp).trans (h.liveOut_subset p)

theorem next_inv {s t : State fn} {a : Action fn} (h : next s a = some t) (hs : Inv s) :
    Inv t := by
  rcases next_cases h with ⟨b, -, hb⟩ | ⟨hw, b, hb, rfl⟩
  · exact hb.inv hs
  · -- the block put in the work set was unvisited, so nothing was known of it
    refine ⟨hs.varKill, hs.upwardUsed, hs.liveOut, hs.upwardUsed_from, hs.liveOut_from, ?_, ?_⟩
    · exact fun c _ hu => hs.through c (by simp [hw]) hu
    · exact fun c _ hu => hs.edge c (by simp [hw]) hu

/-- Nothing is added that some closed family of sets does not have. -/
theorem next_live_le {live : LiveSets fn} (hl : Closed fn live) {s t : State fn} {a : Action fn}
    (h : next s a = some t) (hs : Inv s ∧ s.live ≤ live) : Inv t ∧ t.live ≤ live := by
  refine ⟨next_inv h hs.1, ?_⟩
  rcases next_cases h with ⟨b, -, hb⟩ | ⟨-, b, -, rfl⟩
  · have hin : ∀ c, (↑(t.liveness c).upwardUsed : Set Register) ⊆ live.1 c := by
      intro c
      by_cases hc : c = b
      · subst hc
        rw [hb.upwardUsed_self, hs.1.varKill, Finset.coe_union, Finset.coe_sdiff]
        refine Set.union_subset (hs.2.1 c) ?_
        exact (Set.sdiff_subset_sdiff_left (hs.2.2 c)).trans (hl.through c)
      · rw [hb.upwardUsed c hc]
        exact hs.2.1 c
    refine ⟨hin, fun p => ?_⟩
    change (↑(t.liveness p).liveOut : Set Register) ⊆ live.2 p
    rw [hb.liveOut]
    split
    · rename_i hp
      rw [Finset.coe_union, State.needs, Finset.coe_sdiff]
      refine Set.union_subset (hs.2.2 p) ?_
      exact (Set.sdiff_subset_sdiff_left (hin b)).trans (hl.edge p b hp)
    · exact hs.2.2 p
  · exact hs.2

theorem init_live_le {live : LiveSets fn} (hl : Closed fn live) : (init fn).live ≤ live := by
  refine ⟨fun b => ?_, fun b => hl.init b⟩
  change (↑(initInfo (fn.block b)).upwardUsed : Set Register) ⊆ live.1 b
  rw [initInfo_upwardUsed]
  exact hl.upwardUsed b

theorem run_live_le {live : LiveSets fn} (hl : Closed fn live) {as : List (Action fn)}
    {s : State fn} (h : exec next (init fn) as = some s) : Inv s ∧ s.live ≤ live :=
  exec_invariant (I := fun s => Inv s ∧ s.live ≤ live) (next_live_le hl) h
    ⟨init_inv, init_live_le hl⟩

/-- Once nothing is pending, the invariant says that the sets solve the
equations. -/
theorem Inv.isSolution {s : State fn} (hs : Inv s) (hf : Finished s) : IsSolution fn s.live := by
  have hw : ∀ b, b ∉ s.workSet := fun b => by simp [hf.1]
  have hu : ∀ b, b ∉ s.unvisitBlocks := fun b => by simp [hf.2]
  refine ⟨fun b => ?_, fun b => ?_⟩
  · change (↑(s.liveness b).upwardUsed : Set Register) = _ ∪ (↑(s.liveness b).liveOut \ _)
    rw [← hs.varKill, ← Finset.coe_sdiff, ← Finset.coe_union, Finset.coe_inj]
    refine (hs.upwardUsed_from b).antisymm ?_
    exact Finset.union_subset (hs.upwardUsed b) (hs.through b (hw b) (hu b))
  · rw [← coe_initInfo_liveOut]
    refine Set.Subset.antisymm (fun r hr => ?_) (Set.union_subset (hs.liveOut b) ?_)
    · rcases hs.liveOut_from b r hr with hr | ⟨c, hc, hr⟩
      · exact .inl hr
      · refine .inr (Set.mem_biUnion hc ?_)
        simpa [State.needs, State.live] using hr
    · refine Set.iUnion₂_subset fun c hc => ?_
      have := hs.edge c (hw c) (hu c) b hc
      rwa [← Finset.coe_subset, State.needs, Finset.coe_sdiff] at this

/-! ### Every run ends -/

/-- The registers that can ever become alive. -/
def registers (fn : Function) : Finset Register :=
  Finset.univ.biUnion fun b =>
    (initBlock (fn.block b)).upwardUsed ∪ (initInfo (fn.block b)).liveOut

theorem registers_closed :
    Closed fn (fun _ => ↑(registers fn), fun _ => ↑(registers fn)) where
  upwardUsed b _ hr := Finset.mem_biUnion.mpr ⟨b, Finset.mem_univ b, Finset.mem_union_left _ hr⟩
  through _ := Set.sdiff_subset
  init b _ hr := Finset.mem_biUnion.mpr ⟨b, Finset.mem_univ b, Finset.mem_union_right _ hr⟩
  edge _ _ _ := Set.sdiff_subset

/-- How many registers the exit sets may still gain. -/
def State.missing (s : State fn) : ℕ :=
  ∑ b, ((registers fn).card - (s.liveness b).liveOut.card)

/-- An unvisited block weighs more outside the work set than in it, since it has to
be put there first. -/
def State.pending (s : State fn) : ℕ :=
  2 * (s.unvisitBlocks \ s.workSet).card + s.unvisitBlocks.card + s.workSet.card

def State.measure (s : State fn) : ℕ := s.missing * (fn.blockNum + 1) + s.pending

theorem Visited.missing_le {s t : State fn} {b : fn.Block} (h : Visited s b t) :
    t.missing ≤ s.missing :=
  Finset.sum_le_sum fun p _ => Nat.sub_le_sub_left (Finset.card_le_card (h.liveOut_subset p)) _

theorem Visited.missing_lt {s t : State fn} {b p : fn.Block} (h : Visited s b t)
    (ht : (t.liveness p).liveOut ⊆ registers fn)
    (hp : (t.liveness p).liveOut ≠ (s.liveness p).liveOut) : t.missing < s.missing := by
  refine Finset.sum_lt_sum
    (fun q _ => Nat.sub_le_sub_left (Finset.card_le_card (h.liveOut_subset q)) _)
    ⟨p, Finset.mem_univ p, ?_⟩
  have hlt := Finset.card_lt_card ((h.liveOut_subset p).ssubset_of_ne hp.symm)
  have hle := Finset.card_le_card ht
  omega

theorem Visited.unvisited_le {s t : State fn} {b : fn.Block} (h : Visited s b t) :
    (t.unvisitBlocks \ t.workSet).card ≤ (s.unvisitBlocks \ s.workSet).card ∧
      t.unvisitBlocks.card ≤ s.unvisitBlocks.card := by
  rw [h.unvisitBlocks]
  refine ⟨Finset.card_le_card fun c hc => ?_, Finset.card_le_card (Finset.erase_subset _ _)⟩
  obtain ⟨hu, hw⟩ := Finset.mem_sdiff.mp hc
  obtain ⟨hcb, hu⟩ := Finset.mem_erase.mp hu
  exact Finset.mem_sdiff.mpr
    ⟨hu, fun hcw => hw (h.workSet (Finset.mem_erase.mpr ⟨hcb, hcw⟩))⟩

/-- A visit either adds a register to some exit set, or it only takes a block off
the work set. -/
theorem Visited.measure_lt {s t : State fn} {b : fn.Block} (h : Visited s b t)
    (hb : b ∈ s.workSet) (ht : ∀ p, (t.liveness p).liveOut ⊆ registers fn) :
    t.measure < s.measure := by
  obtain ⟨hu1, hu2⟩ := h.unvisited_le
  unfold State.measure State.pending
  by_cases hsame : ∀ p, (t.liveness p).liveOut = (s.liveness p).liveOut
  · have hwork : t.workSet.card < s.workSet.card := by
      rw [h.unchanged hsame]
      exact Finset.card_erase_lt_of_mem hb
    have hmissing := Nat.mul_le_mul_right (fn.blockNum + 1) h.missing_le
    omega
  · push Not at hsame
    obtain ⟨p, hp⟩ := hsame
    have hmissing := Nat.mul_le_mul_right (fn.blockNum + 1) (h.missing_lt (ht p) hp)
    rw [Nat.succ_mul] at hmissing
    have hwork : t.workSet.card ≤ fn.blockNum := by
      simpa using Finset.card_le_univ t.workSet
    have hpos := Finset.card_pos.mpr ⟨b, hb⟩
    omega

theorem next_measure_lt {s t : State fn} {a : Action fn} (h : next s a = some t)
    (ht : ∀ p, (t.liveness p).liveOut ⊆ registers fn) : t.measure < s.measure := by
  rcases next_cases h with ⟨b, hb, hv⟩ | ⟨hw, b, hb, rfl⟩
  · exact hv.measure_lt hb ht
  · have hcard : (s.unvisitBlocks \ {b}).card + 1 = s.unvisitBlocks.card := by
      rw [Finset.sdiff_singleton_eq_erase]
      exact Finset.card_erase_add_one hb
    have hmissing : State.missing { s with workSet := {b} } = s.missing := rfl
    simp only [State.measure, State.pending, hmissing, hw, Finset.card_singleton,
      Finset.sdiff_empty, Finset.card_empty]
    omega

theorem run_length_le {as : List (Action fn)} {s : State fn}
    (h : exec next (init fn) as = some s) : as.length ≤ (init fn).measure := by
  have := exec_length_le (I := fun s => Inv s ∧ s.live ≤ _) (P := fun _ => True) State.measure
    (fun hst _ hs => next_live_le registers_closed hst hs)
    (fun hst _ hs => next_measure_lt hst (next_live_le registers_closed hst hs).2.2)
    h (fun _ _ => trivial) ⟨init_inv, init_live_le registers_closed⟩
  omega

/-- While something is pending there is a block to work on. -/
theorem exists_next {s : State fn} (h : ¬ Finished s) : ∃ a t, next s a = some t := by
  rcases s.workSet.eq_empty_or_nonempty with hw | ⟨b, hb⟩
  · obtain ⟨b, hb⟩ : s.unvisitBlocks.Nonempty :=
      Finset.nonempty_iff_ne_empty.mpr fun hu => h ⟨hw, hu⟩
    exact ⟨.refill b, _, if_pos ⟨hw, hb⟩⟩
  · exact ⟨.visit b (fn.predecessors b).toList, _,
      if_pos ⟨hb, Finset.nodup_toList _, Finset.toList_toFinset _⟩⟩

/-- The analysis returns. -/
theorem exists_finished (fn : Function) :
    ∃ as s, exec next (init fn) as = some s ∧ Finished s := by
  have hlong : ∀ n, ∃ as s, exec next (init fn) as = some s ∧ (Finished s ∨ as.length = n) := by
    intro n
    induction n with
    | zero => exact ⟨[], init fn, rfl, .inr rfl⟩
    | succ n ih =>
      obtain ⟨as, s, hrun, hs⟩ := ih
      by_cases hf : Finished s
      · exact ⟨as, s, hrun, .inl hf⟩
      · obtain ⟨a, t, ht⟩ := exists_next hf
        refine ⟨as ++ [a], t, exec_append_eq_some.mpr ⟨s, hrun, ?_⟩, .inr ?_⟩
        · exact exec_cons_eq_some.mpr ⟨t, ht, rfl⟩
        · rw [List.length_append, hs.resolve_left hf, List.length_singleton]
  obtain ⟨as, s, hrun, hf | hlen⟩ := hlong ((init fn).measure + 1)
  · exact ⟨as, s, hrun, hf⟩
  · have := run_length_le hrun
    omega

/-! ### Extended live ranges -/

/-- Registers that are defined in the loop and used behind the exit `x`. -/
def toExtend (fn : Function) (info : fn.Block → BlockInfo) (l : Loop fn.blockNum)
    (x : fn.Block × fn.Block) : Finset Register :=
  let cand :=
    if (fn.predecessors x.2).card ≤ 1 then (info x.2).upwardUsed
    else (info x.1).liveOut ∩ (info x.2).upwardUsed
  cand \ (info l.preheader).liveOut

def extendBlock (regs : Finset Register) (info : fn.Block → BlockInfo) (b : fn.Block) :
    fn.Block → BlockInfo :=
  Function.update info b
    { info b with
      upwardUsed := (info b).upwardUsed ∪ regs
      liveOut := (info b).liveOut ∪ regs }

def extendExit (l : Loop fn.blockNum) (info : fn.Block → BlockInfo) (x : fn.Block × fn.Block) :
    fn.Block → BlockInfo :=
  l.bbs.foldl (extendBlock (toExtend fn info l x)) info

def extendLoop (info : fn.Block → BlockInfo) (l : Loop fn.blockNum) : fn.Block → BlockInfo :=
  l.exits.foldl (extendExit l) info

/-- What is live out of a block of a loop and used behind it is made live in the
whole loop. -/
def computeExtraLiveInOut (fn : Function) (info : fn.Block → BlockInfo) :
    fn.Block → BlockInfo :=
  fn.loops.foldl extendLoop info

/-- `info` is what some run of the constructor leaves. -/
def IsLiveness (fn : Function) (isInGenBackend : Bool) (info : fn.Block → BlockInfo) : Prop :=
  ∃ as s, exec next (init fn) as = some s ∧ Finished s ∧
    info = if isInGenBackend then computeExtraLiveInOut fn s.liveness else s.liveness

theorem exists_isLiveness (fn : Function) (isInGenBackend : Bool) :
    ∃ info, IsLiveness fn isInGenBackend info := by
  obtain ⟨as, s, hrun, hf⟩ := exists_finished fn
  exact ⟨_, as, s, hrun, hf, rfl⟩

/-- The kill sets are the same and the exit sets did not shrink. -/
def Extends (info info' : fn.Block → BlockInfo) : Prop :=
  ∀ b, (info' b).varKill = (info b).varKill ∧ (info b).liveOut ⊆ (info' b).liveOut

theorem Extends.refl (info : fn.Block → BlockInfo) : Extends info info :=
  fun _ => ⟨rfl, Finset.Subset.refl _⟩

theorem Extends.trans {i j k : fn.Block → BlockInfo} (hij : Extends i j) (hjk : Extends j k) :
    Extends i k :=
  fun b => ⟨(hjk b).1.trans (hij b).1, (hij b).2.trans (hjk b).2⟩

theorem extends_foldl {τ : Type} {f : (fn.Block → BlockInfo) → τ → fn.Block → BlockInfo}
    (hf : ∀ info x, Extends info (f info x)) (l : List τ) (info : fn.Block → BlockInfo) :
    Extends info (l.foldl f info) := by
  induction l generalizing info with
  | nil => exact .refl _
  | cons x l ih => exact (hf info x).trans (ih _)

theorem extendBlock_extends (regs : Finset Register) (info : fn.Block → BlockInfo)
    (b : fn.Block) : Extends info (extendBlock regs info b) := by
  intro c
  by_cases hc : c = b
  · subst hc
    simp [extendBlock]
  · simp [extendBlock, hc]

theorem extendLoop_extends (info : fn.Block → BlockInfo) (l : Loop fn.blockNum) :
    Extends info (extendLoop info l) :=
  extends_foldl (f := extendExit l)
    (fun info x => extends_foldl (extendBlock_extends (toExtend fn info l x)) l.bbs info)
    l.exits info

theorem computeExtraLiveInOut_extends (info : fn.Block → BlockInfo) :
    Extends info (computeExtraLiveInOut fn info) :=
  extends_foldl extendLoop_extends fn.loops info

/-- What a client may rely on: the kill sets are exact, and the exit sets contain a
solution of the liveness equations. -/
theorem IsLiveness.spec {isInGenBackend : Bool} {info : fn.Block → BlockInfo}
    (h : IsLiveness fn isInGenBackend info) :
    (∀ b, (info b).varKill = (initBlock (fn.block b)).varKill) ∧
      ∃ live, IsSolution fn live ∧ ∀ b, live.2 b ⊆ ↑(info b).liveOut := by
  obtain ⟨as, s, hrun, hf, rfl⟩ := h
  have hinv := (run_live_le registers_closed hrun).1
  have hext : Extends s.liveness
      (if isInGenBackend then computeExtraLiveInOut fn s.liveness else s.liveness) := by
    split
    · exact computeExtraLiveInOut_extends _
    · exact .refl _
  refine ⟨fun b => (hext b).1.trans (hinv.varKill b), s.live, hinv.isSolution hf, fun b => ?_⟩
  exact Finset.coe_subset.mpr (hext b).2

/-! ### The result -/

/-- **Liveness computes the least solution.**  Whatever blocks and orders of
predecessors are chosen, the analysis ends, can always go on until it is done,
and leaves the least solution of the liveness equations; so all choices leave the
same sets. -/
theorem computeLiveInOut_least (fn : Function) :
    (∃ n, ∀ as s, exec next (init fn) as = some s → as.length ≤ n) ∧
    (∀ as s, exec next (init fn) as = some s → ¬ Finished s → ∃ a t, next s a = some t) ∧
    (∀ as s, exec next (init fn) as = some s → Finished s →
      IsLeast {live | IsSolution fn live} s.live) ∧
    (∀ as bs s t, exec next (init fn) as = some s → Finished s →
      exec next (init fn) bs = some t → Finished t → s.live = t.live) := by
  have hleast : ∀ as s, exec next (init fn) as = some s → Finished s →
      IsLeast {live | IsSolution fn live} s.live := fun as s h hf =>
    ⟨(run_live_le registers_closed h).1.isSolution hf,
      fun live hl => (run_live_le hl.closed h).2⟩
  refine ⟨⟨(init fn).measure, fun as s h => run_length_le h⟩, fun as s _ => exists_next,
    hleast, fun as bs s t hs hsf ht htf => ?_⟩
  exact (hleast as s hs hsf).unique (hleast bs t ht htf)

end Ir.Liveness
