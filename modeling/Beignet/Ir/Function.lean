/-
The intermediate representation, as far as the data-flow analyses read it.

A function is a numbered family of basic blocks, each a non-empty list of
instructions with source and destination registers, together with the control
flow graph that `Function::computeCFG` stores as two mutually inverse families of
block sets.

* `Function.mem_predecessors` — the two families are inverse to each other.
-/
import Mathlib

namespace Ir

/-- `ir::Register`, an index into the register file of the function. -/
abbrev Register := ℕ

namespace Ocl

/-- Helper register of the data-flow analysis, alive at the end of every block
that returns. -/
def retVal : Register := 29

/-- Number of special registers. -/
def regNum : ℕ := 41

end Ocl

inductive Profile
  | PROFILE_C
  | PROFILE_OCL
  deriving DecidableEq

/-- The opcodes that the analyses tell from the others. -/
inductive Opcode
  | OP_RET
  | OP_MOV
  | OP_SIMD_ID
  | OP_LOAD (isBlock : Bool)
  | OP_MBREAD
  | OP_ATOMIC
  | OP_MUL_HI
  | OP_HADD
  | OP_RHADD
  | OP_READ_ARF
  | OP_ADDSAT
  | OP_IME
  | OP_VME
  | OP_WORKGROUP
  | OP_SUBGROUP
  | other
  deriving DecidableEq

/-- An instruction and its registers. -/
structure Instruction where
  opcode : Opcode
  src : List Register
  dst : List Register

/-- A block is never empty: its first instruction is its label. -/
structure BasicBlock where
  label : Instruction
  body : List Instruction
  /-- registers the structurizer keeps alive at the end of the block -/
  liveout : Finset Register
  /-- phi copies left undefined when control leaves through the block -/
  undefPhiRegs : Finset Register

namespace BasicBlock

def insns (bb : BasicBlock) : List Instruction := bb.label :: bb.body

def getLastInstruction (bb : BasicBlock) : Instruction :=
  bb.insns.getLast (List.cons_ne_nil _ _)

end BasicBlock

/-- A loop of the control flow graph of `n` blocks. -/
structure Loop (n : ℕ) where
  preheader : Fin n
  bbs : List (Fin n)
  /-- the edges that leave the loop: exiting block, exit block -/
  exits : List (Fin n × Fin n)

structure Function where
  blockNum : ℕ
  block : Fin blockNum → BasicBlock
  successors : Fin blockNum → Finset (Fin blockNum)
  loops : List (Loop blockNum)
  profile : Profile
  /-- the register of each function argument -/
  args : List Register
  /-- the registers that have a push location -/
  pushMap : Finset Register

namespace Function

variable (fn : Function)

abbrev Block := Fin fn.blockNum

/-- `computeCFG` inserts `a` in the predecessors of `b` whenever it inserts `b`
in the successors of `a`. -/
def predecessors (b : fn.Block) : Finset fn.Block :=
  Finset.univ.filter fun a => b ∈ fn.successors a

@[simp] theorem mem_predecessors {a b : fn.Block} :
    a ∈ fn.predecessors b ↔ b ∈ fn.successors a := by
  simp [predecessors]

/-- The top block is `blocks[0]`. -/
def isEntryBlock (b : fn.Block) : Prop := b.val = 0

instance (b : fn.Block) : Decidable (fn.isEntryBlock b) :=
  inferInstanceAs (Decidable (b.val = 0))

/-- For the other profile the first special register is `~0u`, so that there is
none. -/
def isSpecialReg (reg : Register) : Prop :=
  fn.profile = .PROFILE_OCL ∧ reg < Ocl.regNum

instance (reg : Register) : Decidable (fn.isSpecialReg reg) :=
  inferInstanceAs (Decidable (_ ∧ _))

/-- What the IR writer and the argument lowering promise of the registers they make:
arguments, pushed and special registers are all different, and the destinations of
one instruction are different registers. -/
structure WellFormed : Prop where
  args_nodup : fn.args.Nodup
  args_notPushed : ∀ r ∈ fn.args, r ∉ fn.pushMap
  args_notSpecial : ∀ r ∈ fn.args, ¬ fn.isSpecialReg r
  pushMap_notSpecial : ∀ r ∈ fn.pushMap, ¬ fn.isSpecialReg r
  dst_nodup : ∀ b, ∀ i ∈ (fn.block b).insns, i.dst.Nodup

end Function

end Ir
