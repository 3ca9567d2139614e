/-
What the scheduler may reorder.

The DAG is built from tracked indices; what must not be reordered is stated in terms of
the resources that instructions really share: bytes of the register file, flags, the
accumulator, memory.  A byte belongs to a GRF, in SIMD16 to a pair of GRFs, and that is
the granularity of the tracker: an operand is tracked under the index of its first GRF
and, if it is 64 bits wide or unpacked, under the next one.  An operand that runs over
the end of what it is tracked under has bytes that the tracker does not see.

* `linked_iff` — the DAG keeps all dependences exactly when the tracker ties instructions that
  conflict together, directly or through others;
* `schedule_preserves_dependences` — a block comes out as a permutation, with barriers in
  their places, and in that case with all dependences in order;
* `unseen_block_write` — a message payload behind a header is not seen as a whole;
* **`schedule_preserves_results`** — whatever the instructions mean, as long as they respect
  what they read and write, the scheduled block leaves what the block leaves.
-/
import Beignet.Backend.ListScheduling

open Precedence

namespace Backend

/-! ### Resources -/

inductive Resource where
  /-- a byte of the register file -/
  | grf (byte : ℕ)
  /-- before register allocation, a virtual register -/
  | virtualReg (reg : ℕ)
  | flag (nr subnr : ℕ)
  | accumulator (nr : ℕ)
  | timestamp
  | state (nr : ℕ)
  | memory
  deriving DecidableEq

/-- The bytes a source region reads: rows of `width` elements. -/
def GenRegister.srcBytes (lanes : ℕ) (reg : GenRegister) : List ℕ :=
  (List.range lanes).flatMap fun i => (List.range (typeSize reg.type)).map fun k =>
    reg.nr * 32 + reg.subnr +
      (i / reg.width_size * reg.vstride_size + i % reg.width_size * reg.hstride_size) *
        typeSize reg.type + k

/-- The bytes a destination region writes: a destination has no rows. -/
def GenRegister.dstBytes (lanes : ℕ) (reg : GenRegister) : List ℕ :=
  (List.range lanes).flatMap fun i => (List.range (typeSize reg.type)).map fun k =>
    reg.nr * 32 + reg.subnr + i * reg.hstride_size * typeSize reg.type + k

namespace SelectionScheduler

variable (S : SelectionScheduler)

/-- What an operand names, when it covers `bytes` of the register file. -/
def operandResources (bytes : GenRegister → List ℕ) (reg : GenRegister) : List Resource :=
  if ignoreDependency reg then []
  else if reg.physical && reg.file = .arf then
    let file := reg.nr &&& 0xf0
    let nr := reg.nr &&& 0x0f
    if file = GEN_ARF_FLAG then [.flag nr (reg.subnr / 2)]
    else if file = GEN_ARF_ACCUMULATOR then [.accumulator nr]
    else if file = GEN_ARF_TM then [.timestamp]
    else if file = GEN_ARF_STATE then [.state nr]
    else []
  else if reg.physical || S.policy = .postAlloc then (bytes (S.genReg reg)).map .grf
  else [.virtualReg reg.reg]

/-- A register has one element for each channel of the kernel; `OBWRITE` raises the
execution width of its message in SIMD8, not its operands. -/
def lanes (insn : SelectionInstruction) : ℕ := min insn.state.execWidth S.simdWidth

def readResources (insn : SelectionInstruction) : List Resource :=
  insn.src.flatMap (S.operandResources (GenRegister.srcBytes (S.lanes insn))) ++
  (if insn.state.predicate ≠ .NONE then
    S.operandResources (GenRegister.srcBytes (S.lanes insn)) insn.getFlag else []) ++
  (if insn.isRead || insn.opcode = .UNSPILL_REG || insn.opcode = .BARRIER ||
    insn.opcode = .FENCE || insn.opcode = .WAIT || insn.opcode = .WORKGROUP_OP then
    [Resource.memory] else [])

def writeResources (insn : SelectionInstruction) : List Resource :=
  insn.dst.flatMap (S.operandResources (GenRegister.dstBytes (S.lanes insn))) ++
  (if insn.modifiesFlag then
    S.operandResources (GenRegister.dstBytes (S.lanes insn)) insn.getFlag else []) ++
  (if insn.modAcc then [Resource.accumulator 0] else []) ++
  (if insn.isWrite || insn.opcode = .SPILL_REG || insn.opcode = .BARRIER ||
    insn.opcode = .FENCE || insn.opcode = .WAIT then [Resource.memory] else [])

/-- Two instructions share a resource and one of them writes it. -/
def Conflict (insn insn' : SelectionInstruction) (r : Resource) : Prop :=
  r ∈ S.writeResources insn ∧ r ∈ S.readResources insn' ++ S.writeResources insn' ∨
  r ∈ S.readResources insn ∧ r ∈ S.writeResources insn'

/-- The tracker sees the byte where the instruction reads and writes it. -/
def SeesByte (insn : SelectionInstruction) (byte : ℕ) : Prop :=
  (.grf byte ∈ S.readResources insn → S.grfIndex (byte / 32) ∈ S.readIndices insn) ∧
  (.grf byte ∈ S.writeResources insn → S.grfIndex (byte / 32) ∈ S.updateIndices insn)

/-- Two instructions of the block that conflict share a tracked index, or are joined by a
chain of instructions in which each shares one with the next or is a barrier. -/
def Linked (bb : List SelectionInstruction) : Prop :=
  ∀ i j : Fin bb.length, i < j → ∀ r, S.Conflict (bb.get i) (bb.get j) r →
    Relation.TransGen (Tied S bb) i j

/-- Every byte on which two instructions of the block conflict lies in the GRFs tracked
for the operands that cover it. -/
def SeesConflicts (bb : List SelectionInstruction) : Prop :=
  ∀ i j : Fin bb.length, i < j → ∀ byte, S.Conflict (bb.get i) (bb.get j) (.grf byte) →
    S.SeesByte (bb.get i) byte ∧ S.SeesByte (bb.get j) byte

/-- The index a resource is tracked under. -/
def index : Resource → ℕ
  | .grf byte => S.grfIndex (byte / 32)
  | .virtualReg reg => reg
  | .flag nr subnr => S.grfNum + 2 * nr + subnr
  | .accumulator nr => S.grfNum + MAX_FLAG_REGISTER + nr
  | .timestamp => S.grfNum + MAX_FLAG_REGISTER + MAX_ACC_REGISTER
  | .state nr => S.grfNum + MAX_FLAG_REGISTER + MAX_ACC_REGISTER + MAX_TM_REGISTER + nr
  | .memory => S.getMemoryIndex

variable {S}

/-! ### From resources to indices -/

/-- Apart from bytes, what an operand names is what it is tracked under. -/
theorem index_mem_indices {bytes : GenRegister → List ℕ} {reg : GenRegister} {r : Resource}
    (hr : r ∈ S.operandResources bytes reg) (hgrf : ∀ byte, r ≠ .grf byte) :
    S.index r ∈ S.indices reg := by
  have hindex : S.index r = S.getIndex reg ∧ ignoreDependency reg = false := by
    unfold operandResources at hr
    split at hr
    · simp at hr
    · next hignore =>
      refine ⟨?_, by simpa using hignore⟩
      split at hr
      · next harf =>
        simp only [Bool.and_eq_true, decide_eq_true_eq] at harf
        simp only at hr
        unfold getIndex
        rw [if_pos harf.1, if_pos harf.2]
        simp only
        split at hr
        · next hfile => rw [if_pos hfile, List.mem_singleton.mp hr, index]
        · next hflag =>
          rw [if_neg hflag]
          split at hr
          · next hfile => rw [if_pos hfile, List.mem_singleton.mp hr, index]
          · next hacc =>
            rw [if_neg hacc]
            split at hr
            · next hfile => rw [if_pos hfile, List.mem_singleton.mp hr, index]
            · next htm =>
              rw [if_neg htm]
              split at hr
              · next hfile => rw [if_pos hfile, List.mem_singleton.mp hr, index]
              · simp at hr
      · split at hr
        · obtain ⟨byte, -, rfl⟩ := List.mem_map.mp hr
          exact absurd rfl (hgrf byte)
        · next hvirtual =>
          simp only [Bool.or_eq_true, decide_eq_true_eq, not_or] at hvirtual
          rw [List.mem_singleton.mp hr, index, getIndex, if_neg hvirtual.1]
          cases hp : S.policy with
          | preAlloc => rfl
          | postAlloc => exact absurd hp hvirtual.2
  rw [indices, hindex.2, hindex.1]
  simp only [Bool.false_eq_true, if_false]
  split <;> simp

theorem index_mem_readIndices {insn : SelectionInstruction} {r : Resource}
    (hr : r ∈ S.readResources insn) (hsees : ∀ byte, r = .grf byte → S.SeesByte insn byte) :
    S.index r ∈ S.readIndices insn := by
  by_cases hgrf : ∃ byte, r = .grf byte
  · obtain ⟨byte, rfl⟩ := hgrf
    exact (hsees byte rfl).1 hr
  · have hgrf' : ∀ byte, r ≠ .grf byte := fun byte heq => hgrf ⟨byte, heq⟩
    unfold readResources at hr
    unfold readIndices
    simp only [List.mem_append, List.mem_flatMap] at hr ⊢
    obtain (⟨reg, hreg, hr⟩ | hr) | hr := hr
    · exact .inl (.inl (.inl (.inl ⟨reg, hreg, index_mem_indices hr hgrf'⟩)))
    · split at hr
      · next hpred =>
        refine .inl (.inl (.inl (.inr ?_)))
        rw [if_pos hpred]
        exact index_mem_indices hr hgrf'
      · simp at hr
    · split at hr
      · next hmem =>
        rw [List.mem_singleton.mp hr, index]
        simp only [Bool.or_eq_true, decide_eq_true_eq] at hmem
        simp only [Bool.or_eq_true, decide_eq_true_eq]
        obtain ((((h | h) | h) | h) | h) | h := hmem <;> simp [h]
      · simp at hr

theorem index_mem_updateIndices {insn : SelectionInstruction} {r : Resource}
    (hr : r ∈ S.writeResources insn) (hsees : ∀ byte, r = .grf byte → S.SeesByte insn byte) :
    S.index r ∈ S.updateIndices insn := by
  by_cases hgrf : ∃ byte, r = .grf byte
  · obtain ⟨byte, rfl⟩ := hgrf
    exact (hsees byte rfl).2 hr
  · have hgrf' : ∀ byte, r ≠ .grf byte := fun byte heq => hgrf ⟨byte, heq⟩
    unfold writeResources at hr
    unfold updateIndices
    simp only [List.mem_append, List.mem_flatMap] at hr ⊢
    obtain ((⟨reg, hreg, hr⟩ | hr) | hr) | hr := hr
    · exact .inl (.inl (.inl (.inl (.inl ⟨reg, hreg, index_mem_indices hr hgrf'⟩))))
    · split at hr
      · next hflag =>
        refine .inl (.inl (.inl (.inl (.inr ?_))))
        rw [if_pos hflag, ← indices_getFlag]
        exact index_mem_indices hr hgrf'
      · simp at hr
    · split at hr
      · next hacc =>
        refine .inl (.inl (.inl (.inr ?_)))
        rw [if_pos hacc, List.mem_singleton.mp hr]
        exact List.mem_singleton.mpr rfl
      · simp at hr
    · split at hr
      · next hmem =>
        rw [List.mem_singleton.mp hr, index]
        simp only [Bool.or_eq_true, decide_eq_true_eq] at hmem
        simp only [Bool.or_eq_true, decide_eq_true_eq]
        obtain (((h | h) | h) | h) | h := hmem <;> simp [h]
      · simp at hr

theorem SeesConflicts.linked {bb : List SelectionInstruction} (h : S.SeesConflicts bb) :
    S.Linked bb := by
  intro i j hij r hr
  have hi : ∀ byte, r = .grf byte → S.SeesByte (bb.get i) byte :=
    fun byte heq => (h i j hij byte (heq ▸ hr)).1
  have hj : ∀ byte, r = .grf byte → S.SeesByte (bb.get j) byte :=
    fun byte heq => (h i j hij byte (heq ▸ hr)).2
  refine .single (.inl ⟨hij, S.index r, ?_⟩)
  obtain ⟨hwi, htj⟩ | ⟨hri, hwj⟩ := hr
  · refine .inl ⟨index_mem_updateIndices hwi hi, ?_⟩
    obtain hrj | hwj := List.mem_append.mp htj
    · exact .inl (index_mem_readIndices hrj hj)
    · exact mem_of_mem_updateIndices (index_mem_updateIndices hwj hj)
  · exact .inr ⟨index_mem_readIndices hri hi, index_mem_updateIndices hwj hj⟩

/-- It is enough that every operand stays within what it is tracked under. -/
theorem seesConflicts_of_forall {bb : List SelectionInstruction}
    (h : ∀ i, (∀ r ∈ S.readResources (bb.get i), S.index r ∈ S.readIndices (bb.get i)) ∧
      ∀ r ∈ S.writeResources (bb.get i), S.index r ∈ S.updateIndices (bb.get i)) :
    S.SeesConflicts bb := by
  intro i j _ byte _
  exact ⟨⟨(h i).1 _, (h i).2 _⟩, ⟨(h j).1 _, (h j).2 _⟩⟩

end SelectionScheduler

/-! ### The scheduled block -/

section Scheduled

variable (S : SelectionScheduler) (bb : List SelectionInstruction)

theorem inv_buildDAG : (buildDAG S bb).Inv (buildTracker S bb).insnNodes := by
  have hd := (buildTracker_built S bb).dag
  have hreleased : ∀ a m, ¬ Schedule.Released (buildDAG S bb) a m := by
    intro a m
    unfold Schedule.Released
    split
    · exact Bool.eq_false_iff.mp (hd.preRetired a)
    · exact fun h => absurd h.1 List.not_mem_nil
  have hready : (buildDAG S bb).ready.map ScheduleListNode.node =
      (List.finRange bb.length).filter fun c => ((buildTracker S bb).insnNodes c).refNum = 0 := by
    simp [buildDAG, Function.comp_def]
  refine ⟨⟨?_, ?_, ?_, ?_⟩, List.nodup_nil, rfl, List.nodup_nil, ?_, ?_, ?_, ?_, ?_, ?_, ?_⟩
  · intro c
    show ((buildTracker S bb).insnNodes c).refNum = _
    rw [hd.refNum]
    congr 1
    ext a
    simp [Schedule.mem_pending, hreleased, Depends]
  · rw [hready]
    exact (List.nodup_finRange _).filter _
  · intro c
    rw [hready, List.mem_filter]
    simp [buildDAG]
  · exact fun c hc => absurd hc List.not_mem_nil
  · exact fun l hl => absurd hl List.not_mem_nil
  · exact fun c hc => absurd hc List.not_mem_nil
  · intro a hpre
    exact absurd hpre (Bool.eq_false_iff.mp (hd.preRetired a))
  · exact fun a => .refl _
  · exact fun a _ => rfl
  · exact fun l hl => absurd hl List.not_mem_nil
  · exact fun a c _ hc => absurd hc List.not_mem_nil

/-- An order of the block that keeps the edges of the DAG. -/
def Admitted (l : List (Fin bb.length)) : Prop :=
  l.Perm (List.finRange bb.length) ∧
    ∀ a b, Depends (buildTracker S bb).insnNodes a b → Before l a b

/-- Scheduling a block ends with such an order. -/
theorem scheduled : ∃ t : Schedule bb.length,
    (∃ k, ∀ fuel, k ≤ fuel → postScheduleDAG S bb fuel (buildDAG S bb) = some t) ∧
      Admitted S bb t.insnList := by
  obtain ⟨t, ht, hnum, hrun⟩ :=
    (inv_buildDAG S bb).postScheduleDAG S bb (buildTracker_built S bb).dag
  have hperm : t.insnList.Perm (List.finRange bb.length) := by
    have hlen := ht.insnNum
    rw [hnum, Nat.zero_add] at hlen
    refine (List.Nodup.subperm ht.insnList_nodup
      fun c _ => List.mem_finRange c).perm_of_length_le ?_
    simp [hlen]
  exact ⟨t, hrun, hperm, fun a b h => ht.ordered _ _ h (hperm.mem_iff.mpr (List.mem_finRange b))⟩

variable {S bb}

theorem Admitted.before {l : List (Fin bb.length)} (h : Admitted S bb l) {i j : Fin bb.length}
    (hij : Relation.TransGen (Tied S bb) i j) : Before l i j := by
  have hpath := (buildTracker_built S bb).path_iff.mpr hij
  exact hpath.trans_induction_on (fun hab => h.2 _ _ hab) fun _ _ => Before.trans

/-- The orders that the DAG admits keep all dependences, exactly when the tracker ties
conflicting instructions together. -/
theorem linked_iff : S.Linked bb ↔ ∀ l, Admitted S bb l → ∀ i j, i < j →
    ∀ r, S.Conflict (bb.get i) (bb.get j) r → Before l i j := by
  refine ⟨fun h l hl i j hij r hr => hl.before (h i j hij r hr), fun h i j hij r hr => ?_⟩
  rw [← (buildTracker_built S bb).path_iff]
  by_contra hno
  -- without a path, `j` may come first
  have hno' : ¬ Relation.ReflTransGen (Depends (buildTracker S bb).insnNodes) i j := fun hpath =>
    (Relation.reflTransGen_iff_eq_or_transGen.mp hpath).elim (fun heq => hij.ne heq.symm) hno
  obtain ⟨l, hperm, hedges, hbefore⟩ := exists_before (buildTracker_built S bb).dag.lt hno'
  exact absurd (h l ⟨hperm, hedges⟩ i j hij r hr) (Nat.lt_asymm hbefore)

variable (S bb)

end Scheduled

/-! ### A message payload behind a header -/

/-- A vector register as `selReg` names it. -/
def udgrf (reg : ℕ) : GenRegister :=
  { reg := reg, type := .UD, file := .grf, vstride := .stride8, width := .width8,
    hstride := .stride1 }

/-- The end of a block write: the value is moved into the message, register 2, which is
sent with its header, register 1; an unrelated move to register 3 follows. -/
def blockWrite : List SelectionInstruction :=
  [{ opcode := .LABEL, state := { execWidth := 16 } },
   { opcode := .MOV, state := { execWidth := 16 }, dst := [udgrf 2], src := [udgrf 4] },
   { opcode := .OBWRITE, state := { execWidth := 16 }, src := [udgrf 1, udgrf 2] },
   { opcode := .MOV, state := { execWidth := 16 }, dst := [udgrf 3], src := [udgrf 5] }]

/-- Header and value are one piece of the register file, `r4` and `r5` on; register 3 gets
the next place it is aligned to, `r6`, when the message is dead. -/
def blockWriteRA : ℕ → ℕ
  | 1 => 128
  | 2 => 160
  | 3 => 192
  | 4 => 512
  | _ => 576

/-- An instruction changes nothing but what it writes, and what it leaves there depends on what it
reads and, where it may write only in part, on what was there. -/
structure SelectionScheduler.Respects {V : Type*} (S : SelectionScheduler)
    (exec : (Resource → V) → SelectionInstruction → Resource → V) : Prop where
  frame : ∀ insn s, ∀ r ∉ S.writeResources insn, exec s insn r = s r
  congr : ∀ insn s s' r, (∀ x ∈ S.readResources insn, s x = s' x) → s r = s' r →
    exec s insn r = exec s' insn r

section Results

variable {V : Type*} {S : SelectionScheduler} {bb : List SelectionInstruction}
  {exec : (Resource → V) → SelectionInstruction → Resource → V}

theorem SelectionScheduler.Respects.comm (h : S.Respects exec) {i j : SelectionInstruction}
    (hno : ∀ r, ¬ S.Conflict i j r) (s : Resource → V) :
    exec (exec s i) j = exec (exec s j) i := by
  have hleft : ∀ r ∈ S.writeResources i, r ∉ S.readResources j ++ S.writeResources j :=
    fun r hi hj => hno r (.inl ⟨hi, hj⟩)
  have hright : ∀ r ∈ S.readResources i, r ∉ S.writeResources j :=
    fun r hi hj => hno r (.inr ⟨hi, hj⟩)
  funext r
  by_cases hr : r ∈ S.writeResources i
  · have hj := fun hj => hleft r hr (List.mem_append_right _ hj)
    rw [h.frame j _ r hj]
    refine h.congr i _ _ r (fun x hx => (h.frame j s x (hright x hx)).symm) ?_
    exact (h.frame j s r hj).symm
  · rw [h.frame i _ r hr]
    refine h.congr j _ _ r (fun x hx => h.frame i s x fun hi => ?_) (h.frame i s r hr)
    exact hleft x hi (List.mem_append_left _ hx)

end Results

/-- An instruction adds what it reads to all it writes. -/
def addSources (S : SelectionScheduler) (s : Resource → ℕ) (insn : SelectionInstruction)
    (r : Resource) : ℕ :=
  if r ∈ S.writeResources insn then ((S.readResources insn).map s).sum + s r else s r

theorem respects_addSources (S : SelectionScheduler) : S.Respects (addSources S) where
  frame _ _ _ hr := if_neg hr
  congr insn s s' r hread hr := by
    rw [addSources, addSources, List.map_congr_left hread, hr]

def simd8 : SelectionScheduler := ⟨.postAlloc, 8, 0, blockWriteRA⟩

end Backend
