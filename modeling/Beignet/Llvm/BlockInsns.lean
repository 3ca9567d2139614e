/-
Basic blocks as `GenWriter` optimizes them (`llvm_gen_backend.cpp`), and the table of the last uses
of each register.

The two optimizations tell a MOV and a LOADI from the other instructions, which are their operands
and an operation.  What the operations do is a parameter, and so is the world they act on: memory,
the stores made so far and the branch that is taken.

* `buildRegInfo_insns` — a MOV to its own source is dropped;
* `Scanned` — what the table says.
-/
import Beignet.Ir.Immediate
import Beignet.Lib.StraightLine

namespace Llvm

namespace BlockInsns

open Ir StraightLine

abbrev Register := ℕ

/-! ### Instructions -/

/-- A move, a constant, or any other instruction. -/
inductive Insn (Op : Type) where
  | mov (dst src : Register)
  | loadi (imm : Immediate) (dst : Register)
  | other (op : Op) (dst src : List Register)

variable {Op Val World : Type}

namespace Insn

def dst : Insn Op → List Register
  | mov dst _ => [dst]
  | loadi _ dst => [dst]
  | other _ dst _ => dst

def src : Insn Op → List Register
  | mov _ src => [src]
  | loadi _ _ => []
  | other _ _ src => src

/-- `setSrc` of every source. -/
def mapSrc (f : Register → Register) : Insn Op → Insn Op
  | mov dst src => mov dst (f src)
  | loadi imm dst => loadi imm dst
  | other op dst src => other op dst (src.map f)

/-- `setDst` of every destination. -/
def mapDst (f : Register → Register) : Insn Op → Insn Op
  | mov dst src => mov (f dst) src
  | loadi imm dst => loadi imm (f dst)
  | other op dst src => other op (dst.map f) src

/-- A MOV whose destination is its source. -/
def isSelfMov : Insn Op → Bool
  | mov dst src => dst = src
  | _ => false

@[simp] theorem dst_mapSrc (f : Register → Register) (insn : Insn Op) :
    (insn.mapSrc f).dst = insn.dst := by
  cases insn <;> rfl

@[simp] theorem src_mapSrc (f : Register → Register) (insn : Insn Op) :
    (insn.mapSrc f).src = insn.src.map f := by
  cases insn <;> rfl

@[simp] theorem dst_mapDst (f : Register → Register) (insn : Insn Op) :
    (insn.mapDst f).dst = insn.dst.map f := by
  cases insn <;> rfl

@[simp] theorem src_mapDst (f : Register → Register) (insn : Insn Op) :
    (insn.mapDst f).src = insn.src := by
  cases insn <;> rfl

end Insn

/-- Replace register `src` by register `dst` in the destinations. -/
def replaceDst (insn : Insn Op) (src dst : Register) : Insn Op := insn.mapDst (rename src dst)

/-- Replace register `src` by register `dst` in the sources. -/
def replaceSrc (insn : Insn Op) (src dst : Register) : Insn Op := insn.mapSrc (rename src dst)

/-- The registers that a block writes. -/
def written (bb : List (Insn Op)) : List Register := bb.flatMap Insn.dst

/-! ### The table -/

/-- An instruction is named by its place in the block. -/
structure RegInfoForMov where
  lastWriteInsn : Option ℕ
  lastWrite : ℕ
  lastRead : ℕ

abbrev LastUse := Register → RegInfoForMov

def noteSrc (insnID : ℕ) (lastUse : LastUse) (reg : Register) : LastUse :=
  Function.update lastUse reg { lastUse reg with lastRead := insnID }

def noteDst (insnID place : ℕ) (lastUse : LastUse) (reg : Register) : LastUse :=
  Function.update lastUse reg
    { lastUse reg with lastWrite := insnID + 1, lastWriteInsn := some place }

/-- The block so far, the number of the next instruction, and the table. -/
structure RegInfo (Op : Type) where
  insns : List (Insn Op)
  insnID : ℕ
  lastUse : LastUse

def note (info : RegInfo Op) (insn : Insn Op) : RegInfo Op :=
  if insn.isSelfMov then info
  else
    { insns := info.insns ++ [insn]
      insnID := info.insnID + 2
      lastUse := insn.dst.foldl (noteDst info.insnID info.insns.length)
        (insn.src.foldl (noteSrc info.insnID) info.lastUse) }

def buildRegInfo (bb : List (Insn Op)) : RegInfo Op :=
  bb.foldl note ⟨[], 2, fun _ => ⟨none, 0, 0⟩⟩

section Table

variable {insnID place : ℕ} {lastUse : LastUse} {regs : List Register} {r : Register}

theorem foldl_noteSrc : regs.foldl (noteSrc insnID) lastUse r =
    if r ∈ regs then { lastUse r with lastRead := insnID } else lastUse r := by
  induction regs generalizing lastUse with
  | nil => rfl
  | cons reg regs ih =>
    rw [List.foldl_cons, ih, noteSrc]
    by_cases hr : r = reg
    · subst hr
      rw [Function.update_self, if_pos List.mem_cons_self]
      exact ite_self _
    · rw [Function.update_of_ne hr]
      exact if_congr (by rw [List.mem_cons, or_iff_right hr]) rfl rfl

theorem foldl_noteDst : regs.foldl (noteDst insnID place) lastUse r =
    if r ∈ regs then { lastUse r with lastWrite := insnID + 1, lastWriteInsn := some place }
    else lastUse r := by
  induction regs generalizing lastUse with
  | nil => rfl
  | cons reg regs ih =>
    rw [List.foldl_cons, ih, noteDst]
    by_cases hr : r = reg
    · subst hr
      rw [Function.update_self, if_pos List.mem_cons_self]
      exact ite_self _
    · rw [Function.update_of_ne hr]
      exact if_congr (by rw [List.mem_cons, or_iff_right hr]) rfl rfl

end Table

/-- The instruction at a place reads a register. -/
def Reads (bb : List (Insn Op)) (j : ℕ) (x : Register) : Prop :=
  ∃ insn, bb[j]? = some insn ∧ x ∈ insn.src

def Writes (bb : List (Insn Op)) (j : ℕ) (x : Register) : Prop :=
  ∃ insn, bb[j]? = some insn ∧ x ∈ insn.dst

/-- What the numbers of the table say. -/
structure Scanned (info : RegInfo Op) : Prop where
  insnID : info.insnID = 2 * info.insns.length + 2
  read : ∀ j x, Reads info.insns j x → 2 * j + 2 ≤ (info.lastUse x).lastRead
  write : ∀ x, (info.lastUse x).lastWrite ≠ 0 → ∃ q, (info.lastUse x).lastWriteInsn = some q ∧
    (info.lastUse x).lastWrite = 2 * q + 3 ∧ Writes info.insns q x

theorem getElem?_concat {α : Type} {l : List α} {a b : α} {j : ℕ} (h : (l ++ [a])[j]? = some b) :
    l[j]? = some b ∨ j = l.length ∧ b = a := by
  rcases lt_trichotomy j l.length with hlt | heq | hgt
  · rw [List.getElem?_append_left hlt] at h
    exact .inl h
  · rw [heq, List.getElem?_concat_length, Option.some.injEq] at h
    exact .inr ⟨heq, h.symm⟩
  · rw [List.getElem?_eq_none (by rw [List.length_append, List.length_singleton]; omega)] at h
    cases h

theorem Scanned.note {info : RegInfo Op} (h : Scanned info) (insn : Insn Op) :
    Scanned (note info insn) := by
  rw [BlockInsns.note]
  split
  · exact h
  refine ⟨?_, fun j x hread => ?_, fun x hne => ?_⟩
  · simp only [h.insnID, List.length_append, List.length_singleton]
    ring
  · simp only [foldl_noteDst, foldl_noteSrc]
    obtain ⟨insn', hj, hx⟩ := hread
    have hread : 2 * j + 2 ≤ (if x ∈ insn.src then { info.lastUse x with lastRead := info.insnID }
        else info.lastUse x).lastRead := by
      rcases getElem?_concat hj with hj | ⟨rfl, rfl⟩
      · have hold := h.read j x ⟨insn', hj, hx⟩
        have hlt := (List.getElem?_eq_some_iff.mp hj).1
        have hid := h.insnID
        split
        · simp only
          omega
        · exact hold
      · rw [if_pos hx]
        exact h.insnID.ge
    split
    · exact hread
    · exact hread
  · simp only [foldl_noteDst, foldl_noteSrc] at hne ⊢
    split at hne
    · next hmem =>
      rw [if_pos hmem]
      refine ⟨info.insns.length, rfl, ?_, insn, List.getElem?_concat_length, hmem⟩
      simp only [h.insnID]
    · next hmem =>
      rw [if_neg hmem]
      have hsame : ∀ {β : Type} (f : RegInfoForMov → β),
          (∀ u n, f { u with lastRead := n } = f u) →
          f (if x ∈ insn.src then { info.lastUse x with lastRead := info.insnID }
            else info.lastUse x) = f (info.lastUse x) := fun f hf => by
        split
        · exact hf _ _
        · rfl
      rw [hsame RegInfoForMov.lastWrite fun _ _ => rfl] at hne
      obtain ⟨q, hq, hlast, insn', hget, hx⟩ := h.write x hne
      refine ⟨q, ?_, ?_, insn', ?_, hx⟩
      · rw [hsame RegInfoForMov.lastWriteInsn fun _ _ => rfl, hq]
      · rw [hsame RegInfoForMov.lastWrite fun _ _ => rfl, hlast]
      · rw [List.getElem?_append_left (List.getElem?_eq_some_iff.mp hget).1, hget]

theorem scanned_buildRegInfo (bb : List (Insn Op)) : Scanned (buildRegInfo bb) := by
  have hfold : ∀ (info : RegInfo Op), Scanned info → Scanned (bb.foldl note info) := by
    induction bb with
    | nil => exact fun _ h => h
    | cons insn bb ih => exact fun info h => ih _ (h.note insn)
  refine hfold _ ⟨rfl, fun j x hread => ?_, fun x hne => absurd rfl hne⟩
  obtain ⟨insn, hj, -⟩ := hread
  cases hj

/-- A MOV to its own source is dropped. -/
theorem buildRegInfo_insns (bb : List (Insn Op)) :
    (buildRegInfo bb).insns = bb.filter fun insn => ! insn.isSelfMov := by
  have hfold : ∀ (info : RegInfo Op), (bb.foldl note info).insns =
      info.insns ++ bb.filter fun insn => ! insn.isSelfMov := by
    induction bb with
    | nil => exact fun info => (List.append_nil _).symm
    | cons insn bb ih =>
      intro info
      rw [List.foldl_cons, ih, note]
      cases hself : insn.isSelfMov with
      | true => simp [hself]
      | false => simp [hself]
  exact hfold _

/-! ### Execution -/

/-- What a LOADI loads: the bytes of its type. -/
def loaded (imm : Immediate) : ℕ := Buffer.number (imm.data.take imm.type.getTypeSize)

/-- The meaning of the instructions. -/
structure Machine (Op Val World : Type) where
  load : ImmType → ℕ → Val
  run : Op → List Val → World → (ℕ → Val) × World

def Insn.action (m : Machine Op Val World) : Insn Op → Action Register Val World
  | .mov dst src => .copy dst src
  | .loadi imm dst => .const dst (m.load imm.type (loaded imm))
  | .other op dst src =>
    { dst := dst
      src := src
      run := fun regs w => m.run op (src.map regs) w
      congr := fun _ _ _ h => by rw [List.map_congr_left h] }

/-- Execute a block. -/
def execBlock (m : Machine Op Val World) (s : State Register Val World) (bb : List (Insn Op)) :
    State Register Val World :=
  StraightLine.exec s (bb.map (Insn.action m))

/-- The two blocks leave the same values in the registers that are live out, and do the same. -/
def Same (liveOut : Set Register) (bb bb' : List (Insn Op)) : Prop :=
  ∀ {Val World : Type} (m : Machine Op Val World) (s : State Register Val World),
    AgreeOff liveOutᶜ (execBlock m s bb) (execBlock m s bb')

section

variable (m : Machine Op Val World) (insn : Insn Op) (f : Register → Register)

@[simp] theorem dst_action : (insn.action m).dst = insn.dst := by
  cases insn <;> rfl

@[simp] theorem src_action : (insn.action m).src = insn.src := by
  cases insn <;> rfl

theorem action_mapSrc : (insn.mapSrc f).action m = (insn.action m).mapSrc f := by
  cases insn with
  | mov dst src => rfl
  | loadi imm dst => rfl
  | other op dst src =>
    simp only [Insn.mapSrc, Insn.action, Action.mapSrc, List.map_map, Function.comp_def]

theorem action_mapDst : (insn.mapDst f).action m = (insn.action m).mapDst f := by
  cases insn <;> rfl

end

section Exec

variable (m : Machine Op Val World) {s t : State Register Val World} {bb cc : List (Insn Op)}

@[simp] theorem execBlock_nil : execBlock m s [] = s := rfl

@[simp] theorem execBlock_cons (insn : Insn Op) :
    execBlock m s (insn :: bb) = execBlock m (step s (insn.action m)) bb := rfl

theorem execBlock_append : execBlock m s (bb ++ cc) = execBlock m (execBlock m s bb) cc := by
  rw [execBlock, List.map_append, StraightLine.exec_append]
  rfl

theorem writes_map : writes (bb.map (Insn.action m)) = written bb := by
  induction bb with
  | nil => rfl
  | cons insn bb ih =>
    rw [List.map_cons, writes_cons, ih, dst_action]
    rfl

theorem execBlock_frame {x : Register} (h : x ∉ written bb) :
    (execBlock m s bb).regs x = s.regs x :=
  StraightLine.exec_frame ((writes_map m).symm ▸ h)

theorem execBlock_filter :
    execBlock m s (bb.filter fun insn => ! insn.isSelfMov) = execBlock m s bb := by
  induction bb generalizing s with
  | nil => rfl
  | cons insn bb ih =>
    cases hself : insn.isSelfMov with
    | false =>
      rw [List.filter_cons_of_pos (by rw [hself]; rfl)]
      exact ih
    | true =>
      rw [List.filter_cons_of_neg (by rw [hself]; exact Bool.false_ne_true)]
      cases insn with
      | mov dst src =>
        obtain rfl : dst = src := of_decide_eq_true hself
        refine ih.trans ?_
        rw [execBlock, execBlock, List.map_cons, StraightLine.exec_cons]
        simp only [Insn.action, step_copy, Function.update_eq_self]
      | loadi imm dst => cases hself
      | other op dst src => cases hself

/-- Two machines on the same block: what relates all the loaded values and all the results relates
the registers. -/
theorem execBlock_related {Val' World' : Type} {R : Val → Val' → Prop} (m' : Machine Op Val' World')
    (hload : ∀ t n, R (m.load t n) (m'.load t n))
    (hrun : ∀ op vs vs' w w' i, R ((m.run op vs w).1 i) ((m'.run op vs' w').1 i))
    {s' : State Register Val' World'} (h : ∀ r, R (s.regs r) (s'.regs r)) (r : Register) :
    R ((execBlock m s bb).regs r) ((execBlock m' s' bb).regs r) := by
  induction bb generalizing s s' with
  | nil => exact h r
  | cons insn bb ih =>
    refine ih fun r => ?_
    cases insn with
    | mov dst src =>
      simp only [Insn.action, step_copy, Function.update_apply]
      split
      · exact h src
      · exact h r
    | loadi imm dst =>
      simp only [Insn.action, step_const, Function.update_apply]
      split
      · exact hload _ _
      · exact h r
    | other op dst src =>
      by_cases hmem : r ∈ dst
      · rw [step_of_mem (a := (Insn.other op dst src).action m) hmem,
          step_of_mem (a := (Insn.other op dst src).action m') hmem]
        exact hrun _ _ _ _ _ _
      · rw [step_of_notMem (a := (Insn.other op dst src).action m) hmem,
          step_of_notMem (a := (Insn.other op dst src).action m') hmem]
        exact h r

end Exec

section Same

variable {L : Set Register} {bb cc dd : List (Insn Op)}

theorem Same.trans (h : Same L bb cc) (h' : Same L cc dd) : Same L bb dd := fun m s =>
  (h m s).trans (h' m s)

theorem Same.symm (h : Same L bb cc) : Same L cc bb := fun m s => (h m s).symm

end Same

end BlockInsns

end Llvm
