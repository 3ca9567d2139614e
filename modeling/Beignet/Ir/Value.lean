/-
UD and DU chains, `ir/value.cpp`: the model of `LiveOutSet` and of the
constructor of `FunctionDAG`.

For every block and every register alive at its end, `LiveOutSet` collects the
definitions that may reach the end of the block.  It starts with the definitions
made in the block and, in the top block, those made by the caller, and transfers
the sets along the edges of the graph until nothing changes.  The constructor of
`FunctionDAG` then walks each block top to bottom to build the chain of each use,
and inverts the chains.

A look-up that the source guards by an assertion answers `none` here, and the
order in which the pointer-keyed maps go through the edges is a parameter.
-/
import Beignet.Ir.Liveness
import Beignet.Lib.Iterate

namespace Ir

variable {fn : Function}

/-- A value definition; instructions are told apart by block and position,
arguments by their number, pushed and special values by their register. -/
inductive ValueDef (fn : Function)
  | fnArg (argID : ℕ)
  | fnPushed (reg : Register)
  | insnDst (b : fn.Block) (insn dstID : ℕ)
  | specialReg (reg : Register)
  deriving DecidableEq

/-- A source of an instruction. -/
structure ValueUse (fn : Function) where
  b : fn.Block
  insn : ℕ
  srcID : ℕ
  deriving DecidableEq

abbrev DefSet (fn : Function) := Finset (ValueDef fn)

abbrev UseSet (fn : Function) := Finset (ValueUse fn)

/-- The register read by a use. -/
def ValueUse.getRegister (u : ValueUse fn) : Option Register :=
  (fn.block u.b).insns[u.insn]?.bind fun insn => insn.src[u.srcID]?

namespace LiveOutSet

/-- One set of definitions per block and register; only the entries of registers
alive at the end of the block exist. -/
abbrev FunctionDefMap (fn : Function) := fn.Block → Register → DefSet fn

/-! ### Definitions made in a block -/

/-- One destination of the instruction at position `i`: only the most recent
definition of a live register counts. -/
def scanDst (liveOut : Finset Register) (b : fn.Block) (i : ℕ)
    (acc : Finset Register × (Register → DefSet fn)) (dst : Register × ℕ) :
    Finset Register × (Register → DefSet fn) :=
  if dst.1 ∈ acc.1 then acc
  else if dst.1 ∉ liveOut then acc
  else (insert dst.1 acc.1,
    Function.update acc.2 dst.1 (insert (.insnDst b i dst.2) (acc.2 dst.1)))

def scanInsn (liveOut : Finset Register) (b : fn.Block)
    (acc : Finset Register × (Register → DefSet fn)) (insn : Instruction × ℕ) :
    Finset Register × (Register → DefSet fn) :=
  insn.1.dst.zipIdx.foldl (scanDst liveOut b insn.2) acc

/-- The block is traversed backwards. -/
def initializeInstructionDef (info : fn.Block → Liveness.BlockInfo) : FunctionDefMap fn :=
  fun b => ((fn.block b).insns.zipIdx.reverse.foldl (scanInsn (info b).liveOut b)
    (∅, fun _ => ∅)).2

/-! ### Definitions made by the caller -/

/-- All the arguments, special and pushed values held by a register. -/
def otherDef (fn : Function) (reg : Register) : DefSet fn :=
  ((Finset.range fn.args.length).filter fun argID => fn.args[argID]? = some reg).image .fnArg ∪
    (if fn.isSpecialReg reg then {.specialReg reg} else ∅) ∪
    (if reg ∈ fn.pushMap then {.fnPushed reg} else ∅)

/-- The top block also transfers what it does not overwrite. -/
def initializeOtherDef (info : fn.Block → Liveness.BlockInfo) (m : FunctionDefMap fn) :
    FunctionDefMap fn :=
  fun b reg =>
    if fn.isEntryBlock b ∧ reg ∈ (info b).liveOut ∧ reg ∉ (info b).varKill then
      m b reg ∪ otherDef fn reg
    else m b reg

/-! ### The iteration -/

/-- The registers whose definitions go from `pred` to `curr`. -/
def transferred (info : fn.Block → Liveness.BlockInfo) (curr pred : fn.Block) :
    Finset Register :=
  ((info curr).liveOut ∩ (info pred).liveOut) \ (info curr).varKill

/-- The edge, given as current block and predecessor, has nothing left to transfer. -/
def Settled (info : fn.Block → Liveness.BlockInfo) (m : FunctionDefMap fn)
    (edge : fn.Block × fn.Block) : Prop :=
  ∀ reg ∈ transferred info edge.1 edge.2, m edge.2 reg ⊆ m edge.1 reg

instance (info : fn.Block → Liveness.BlockInfo) (m : FunctionDefMap fn)
    (edge : fn.Block × fn.Block) : Decidable (Settled info m edge) :=
  Finset.decidableDforallFinset

/-- Transfer along one edge; the flag records that something was new. -/
def transfer (info : fn.Block → Liveness.BlockInfo) (acc : FunctionDefMap fn × Bool)
    (edge : fn.Block × fn.Block) : FunctionDefMap fn × Bool :=
  let m := acc.1
  (Function.update m edge.1 fun reg =>
      if reg ∈ transferred info edge.1 edge.2 then m edge.1 reg ∪ m edge.2 reg
      else m edge.1 reg,
    acc.2 || !decide (Settled info m edge))

/-- One round over the edges. -/
def transferAll (info : fn.Block → Liveness.BlockInfo) (edges : List (fn.Block × fn.Block))
    (m : FunctionDefMap fn) : FunctionDefMap fn × Bool :=
  edges.foldl (transfer info) (m, false)

def iterateLiveOut (info : fn.Block → Liveness.BlockInfo) (edges : List (fn.Block × fn.Block))
    (fuel : ℕ) (m : FunctionDefMap fn) : Option (FunctionDefMap fn) :=
  Iterate.untilStable (transferAll info edges) fuel m

/-- The constructor of `LiveOutSet`. -/
def build (info : fn.Block → Liveness.BlockInfo) (edges : List (fn.Block × fn.Block))
    (fuel : ℕ) : Option (FunctionDefMap fn) :=
  iterateLiveOut info edges fuel (initializeOtherDef info (initializeInstructionDef info))

/-- The one definition by the caller that a use in the top block sees. -/
def entryDef (fn : Function) (reg : Register) : DefSet fn :=
  if reg ∈ fn.pushMap then {.fnPushed reg}
  else match fn.args.idxOf? reg with
    | some argID => {.fnArg argID}
    | none => if fn.isSpecialReg reg then {.specialReg reg} else ∅

/-- The union of the chains of the predecessors; `getDefSet` asserts that each of
them has an entry for the register. -/
def makeDefSet (info : fn.Block → Liveness.BlockInfo) (m : FunctionDefMap fn) (b : fn.Block)
    (reg : Register) : Option (DefSet fn) :=
  let preds := (fn.predecessors b).filter fun p => reg ∉ (fn.block p).undefPhiRegs
  if ∀ p ∈ preds, reg ∈ (info p).liveOut then
    some (preds.biUnion (fun p => m p reg) ∪ if fn.isEntryBlock b then entryDef fn reg else ∅)
  else none

end LiveOutSet

/-! ### The chains -/

/-- The UD chain of each use and the DU chain of each definition. -/
structure FunctionDAG (fn : Function) where
  udGraph : ValueUse fn → DefSet fn
  duGraph : ValueDef fn → UseSet fn

namespace FunctionDAG

/-- The chains known in the block being walked, and the UD chains found so far. -/
structure Walk (fn : Function) where
  allocated : Register → Option (DefSet fn)
  udGraph : ValueUse fn → DefSet fn

/-- A source takes the chain of its register, made from the predecessors if the
block has none yet. -/
def useSrc (info : fn.Block → Liveness.BlockInfo) (m : LiveOutSet.FunctionDefMap fn)
    (b : fn.Block) (i : ℕ) (w : Walk fn) (src : Register × ℕ) : Option (Walk fn) :=
  match w.allocated src.1 with
  | some chain => some { w with udGraph := Function.update w.udGraph ⟨b, i, src.2⟩ chain }
  | none => do
    let chain ← LiveOutSet.makeDefSet info m b src.1
    some { allocated := Function.update w.allocated src.1 (some chain)
           udGraph := Function.update w.udGraph ⟨b, i, src.2⟩ chain }

/-- A destination starts a new chain. -/
def defDst (b : fn.Block) (i : ℕ) (w : Walk fn) (dst : Register × ℕ) : Walk fn :=
  { w with allocated := Function.update w.allocated dst.1 (some {.insnDst b i dst.2}) }

def walkInsn (info : fn.Block → Liveness.BlockInfo) (m : LiveOutSet.FunctionDefMap fn)
    (b : fn.Block) (w : Walk fn) (insn : Instruction × ℕ) : Option (Walk fn) := do
  let w ← insn.1.src.zipIdx.foldlM (useSrc info m b insn.2) w
  some (insn.1.dst.zipIdx.foldl (defDst b insn.2) w)

def walkBlock (info : fn.Block → Liveness.BlockInfo) (m : LiveOutSet.FunctionDefMap fn)
    (ud : ValueUse fn → DefSet fn) (b : fn.Block) : Option (ValueUse fn → DefSet fn) := do
  let w ← (fn.block b).insns.zipIdx.foldlM (walkInsn info m b) ⟨fun _ => none, ud⟩
  some w.udGraph

/-- All the uses of the function, in the order of its instructions. -/
def uses (fn : Function) : List (ValueUse fn) :=
  (List.finRange fn.blockNum).flatMap fun b =>
    (fn.block b).insns.zipIdx.flatMap fun insn =>
      (List.range insn.1.src.length).map fun srcID => ⟨b, insn.2, srcID⟩

/-- Push a use to all its definitions. -/
def pushUse (ud : ValueUse fn → DefSet fn) (du : ValueDef fn → UseSet fn) (u : ValueUse fn) :
    ValueDef fn → UseSet fn :=
  fun d => if d ∈ ud u then insert u (du d) else du d

/-- The constructor; `none` when an assertion fails or the fuel runs out. -/
def build (info : fn.Block → Liveness.BlockInfo) (edges : List (fn.Block × fn.Block))
    (fuel : ℕ) : Option (FunctionDAG fn) := do
  let m ← LiveOutSet.build info edges fuel
  let ud ← (List.finRange fn.blockNum).foldlM (walkBlock info m) fun _ => ∅
  some ⟨ud, (uses fn).foldl (pushUse ud) fun _ => ∅⟩

end FunctionDAG

end Ir
