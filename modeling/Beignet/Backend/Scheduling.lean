/-
The instruction scheduler (`gen_insn_scheduling.cpp`): `SelectionScheduler::buildDAG` with
the `DependencyTracker`, and `postScheduleDAG`, the list scheduler that runs on each block
after register allocation.

The node of an instruction is its position in the block, so the node pool, the array
`insnNodes` and the pointers between nodes become one table over positions.  An intrusive
list is a list; `nodes`, the last node to write each tracked index, is a function.  The
two loops of a retiring instruction over its children and the passes of `buildDAG` over the
indices of an instruction differ in one argument only and are one definition each.
Cycles are 32-bit numbers and wrap around.  The costs that choose among ready instructions
are doubles rounded to single precision.  Left out are the counters and tables that only
the scheduling before register allocation reads (`depNum`, `regNum`).
-/
import Beignet.Backend.Selection
import Beignet.Lib.Rounding

open Rounding

namespace Backend

/-! ### Latencies -/

/-- The instruction families of `gen_insn_selection.hxx`. -/
inductive SelectionFamily where
  | Label | Unary | UnaryWithTemp | Binary | SimdShuffle | BinaryWithTemp | Ternary | I64Shift
  | I64HADD | I64RHADD | I64ToFloat | FloatToI64 | I64MULHI | I64MADSAT | Compare | I64Compare
  | I64DIVREM | Jump | IndirectMove | Eot | NoOp | Wait | Math | Barrier | Fence | Read64
  | Write64 | Read64A64 | Write64A64 | UntypedRead | UntypedWrite | UntypedReadA64
  | UntypedWriteA64 | ByteGatherA64 | ByteScatterA64 | ByteGather | ByteScatter | DWordGather
  | PackByte | UnpackByte | PackLong | UnpackLong | Sample | Vme | Ime | TypedWrite | SpillReg
  | UnSpillReg | Atomic | AtomicA64 | I64MUL | I64SATADD | I64SATSUB | F64DIV | CalcTimestamp
  | StoreProfiling | WorkGroupOp | SubGroupOp | Printf | OBRead | OBWrite | MBRead | MBWrite

def SelectionOpcode.family : SelectionOpcode → SelectionFamily
  | .LABEL => .Label
  | .MOV | .LOAD_INT64_IMM | .NOT | .LZD | .RNDZ | .RNDE | .RNDD | .RNDU | .FRC | .F16TO32
  | .F32TO16 | .FBH | .FBL | .CBIT | .CONVI64_TO_I | .BRC | .BRD | .IF | .ENDIF | .ELSE
  | .READ_ARF | .WHILE | .BFREV => .Unary
  | .BSWAP | .CONVI_TO_I64 => .UnaryWithTemp
  | .SEL | .SEL_INT64 | .AND | .OR | .XOR | .I64AND | .I64OR | .I64XOR | .SHR | .SHL | .RSR
  | .RSL | .ASR | .ADD | .MUL | .MACH | .UPSAMPLE_LONG => .Binary
  | .SIMD_SHUFFLE => .SimdShuffle
  | .I64ADD | .I64SUB | .MUL_HI | .HADD | .RHADD => .BinaryWithTemp
  | .MAD | .LRP => .Ternary
  | .I64SHR | .I64SHL | .I64ASR => .I64Shift
  | .I64HADD => .I64HADD
  | .I64RHADD => .I64RHADD
  | .CONVI64_TO_F => .I64ToFloat
  | .CONVF_TO_I64 => .FloatToI64
  | .I64_MUL_HI => .I64MULHI
  | .I64MADSAT => .I64MADSAT
  | .CMP | .SEL_CMP => .Compare
  | .I64CMP => .I64Compare
  | .I64DIV | .I64REM => .I64DIVREM
  | .JMPI => .Jump
  | .INDIRECT_MOVE => .IndirectMove
  | .EOT => .Eot
  | .NOP => .NoOp
  | .WAIT => .Wait
  | .MATH => .Math
  | .BARRIER => .Barrier
  | .FENCE => .Fence
  | .READ64 => .Read64
  | .WRITE64 => .Write64
  | .READ64A64 => .Read64A64
  | .WRITE64A64 => .Write64A64
  | .UNTYPED_READ => .UntypedRead
  | .UNTYPED_WRITE => .UntypedWrite
  | .UNTYPED_READA64 => .UntypedReadA64
  | .UNTYPED_WRITEA64 => .UntypedWriteA64
  | .BYTE_GATHERA64 => .ByteGatherA64
  | .BYTE_SCATTERA64 => .ByteScatterA64
  | .BYTE_GATHER => .ByteGather
  | .BYTE_SCATTER => .ByteScatter
  | .DWORD_GATHER => .DWordGather
  | .PACK_BYTE => .PackByte
  | .UNPACK_BYTE => .UnpackByte
  | .PACK_LONG => .PackLong
  | .UNPACK_LONG => .UnpackLong
  | .SAMPLE => .Sample
  | .VME => .Vme
  | .IME => .Ime
  | .TYPED_WRITE => .TypedWrite
  | .SPILL_REG => .SpillReg
  | .UNSPILL_REG => .UnSpillReg
  | .ATOMIC => .Atomic
  | .ATOMICA64 => .AtomicA64
  | .I64MUL => .I64MUL
  | .I64SATADD => .I64SATADD
  | .I64SATSUB => .I64SATSUB
  | .F64DIV => .F64DIV
  | .CALC_TIMESTAMP => .CalcTimestamp
  | .STORE_PROFILING => .StoreProfiling
  | .WORKGROUP_OP => .WorkGroupOp
  | .SUBGROUP_OP => .SubGroupOp
  | .PRINTF => .Printf
  | .OBREAD => .OBRead
  | .OBWRITE => .OBWrite
  | .MBREAD => .MBRead
  | .MBWRITE => .MBWrite

/-- `gen_insn_gen7_schedule_info.hxx`: latency, then throughput in SIMD16 and in SIMD8. -/
def SelectionFamily.schedule : SelectionFamily → ℕ × ℕ × ℕ
  | .Label => (0, 0, 0)
  | .Unary | .Binary | .SimdShuffle | .Ternary | .Compare | .Math => (20, 4, 2)
  | .UnaryWithTemp | .BinaryWithTemp | .I64Shift | .I64HADD | .I64RHADD | .I64ToFloat
  | .FloatToI64 | .I64MULHI | .I64MADSAT | .I64MUL | .I64SATADD | .I64SATSUB
  | .F64DIV => (20, 40, 20)
  | .I64Compare | .I64DIVREM => (20, 80, 20)
  | .Jump => (14, 1, 1)
  | .IndirectMove | .NoOp | .Wait => (20, 2, 2)
  | .Eot | .SpillReg => (20, 1, 1)
  | .Barrier | .Fence | .Read64 | .Write64 | .Read64A64 | .Write64A64 | .TypedWrite | .Atomic
  | .AtomicA64 | .CalcTimestamp | .StoreProfiling | .WorkGroupOp | .SubGroupOp | .Printf
  | .OBRead | .OBWrite | .MBRead | .MBWrite => (80, 1, 1)
  | .UntypedRead | .UntypedWrite | .UntypedReadA64 | .UntypedWriteA64 | .ByteGatherA64
  | .ByteScatterA64 | .ByteGather | .ByteScatter | .DWordGather | .Sample
  | .UnSpillReg => (160, 1, 1)
  | .PackByte | .UnpackByte | .PackLong | .UnpackLong => (40, 1, 1)
  | .Vme | .Ime => (320, 1, 1)

namespace SelectionScheduler

def getLatencyGen7 (insn : SelectionInstruction) : UInt32 :=
  .ofNat insn.opcode.family.schedule.1

def getThroughputGen7 (insn : SelectionInstruction) (isSIMD8 : Bool) : UInt32 :=
  let schedule := insn.opcode.family.schedule.2
  .ofNat (if isSIMD8 then schedule.2 else schedule.1)

end SelectionScheduler

/-! ### Nodes -/

inductive DepMode where
  | writeAfterWrite | writeAfterRead | readAfterWrite | readAfterWriteMemory
  deriving DecidableEq

structure ScheduleListNode (n : ℕ) where
  node : Fin n
  depMode : DepMode := .readAfterWrite
  deriving DecidableEq

@[ext] structure ScheduleDAGNode (n : ℕ) where
  /-- the nodes that depend on this one -/
  children : List (ScheduleListNode n) := []
  /-- how many nodes this one depends on -/
  refNum : ℕ := 0
  retiredCycle : UInt32 := 0
  preRetired : Bool := false
  readDistance : ℕ := 0x7fffffff

inductive SchedulePolicy where
  | preAlloc | postAlloc
  deriving DecidableEq

/-- What the scheduler knows of the selection and of the register allocation. -/
structure SelectionScheduler where
  policy : SchedulePolicy := .postAlloc
  simdWidth : ℕ
  /-- `selection.getRegNum()` -/
  regNum : ℕ := 0
  /-- the byte in the register file at which a virtual register is placed -/
  RA : ℕ → ℕ

/-- The DAG, and the last writer of each index. -/
structure DependencyTracker (n : ℕ) where
  insnNodes : Fin n → ScheduleDAGNode n := fun _ => {}
  /-- the last node that wrote to a register, to memory … -/
  nodes : ℕ → Option (Fin n) := fun _ => none
  /-- the nodes each node depends on -/
  deps : Fin n → List (Fin n) := fun _ => []

/-! ### Tracked indices -/

namespace SelectionScheduler

def MAX_FLAG_REGISTER : ℕ := 8
def MAX_ACC_REGISTER : ℕ := 1
def MAX_TM_REGISTER : ℕ := 1
def MAX_ST_REGISTER : ℕ := 2
def MAX_ARF_REGISTER : ℕ :=
  MAX_FLAG_REGISTER + MAX_ACC_REGISTER + MAX_TM_REGISTER + MAX_ST_REGISTER

variable (S : SelectionScheduler)

def grfNum : ℕ :=
  match S.policy with
  | .preAlloc => S.regNum
  | .postAlloc => if S.simdWidth = 8 then 128 else 64

/-- `GenRegAllocator::genReg`: the physical register of an operand. -/
def genReg (reg : GenRegister) : GenRegister :=
  if reg.file = .grf then
    if reg.physical then reg
    else
      let suboffset := if reg.subphysical then reg.nr * 32 + reg.subnr else 0
      let grfOffset := S.RA reg.reg + suboffset
      let dst := { reg with physical := true, nr := grfOffset / 32, subnr := grfOffset % 32 }
      if reg.quarter ≠ 0 then dst.QnPhysical reg.quarter else dst
  else reg

/-- The index of a GRF: itself in SIMD8, its pair of GRFs in SIMD16. -/
def grfIndex (nr : ℕ) : ℕ := if S.simdWidth = 8 then nr else nr / 2

def ignoreDependency (reg : GenRegister) : Bool :=
  reg.file = .immediate || (reg.file = .arf && reg.nr &&& 0xf0 = GEN_ARF_NULL)

def getIndex (reg : GenRegister) : ℕ :=
  if reg.physical then
    if reg.file = .arf then
      let file := reg.nr &&& 0xf0
      let nr := reg.nr &&& 0x0f
      if file = GEN_ARF_FLAG then S.grfNum + 2 * nr + reg.subnr / 2
      else if file = GEN_ARF_ACCUMULATOR then S.grfNum + MAX_FLAG_REGISTER + nr
      else if file = GEN_ARF_TM then S.grfNum + MAX_FLAG_REGISTER + MAX_ACC_REGISTER
      else if file = GEN_ARF_STATE then
        S.grfNum + MAX_FLAG_REGISTER + MAX_ACC_REGISTER + MAX_TM_REGISTER + nr
      else 0
    else S.grfIndex reg.nr
  else
    match S.policy with
    | .postAlloc => S.grfIndex (S.genReg reg).nr
    | .preAlloc => reg.reg

def getMemoryIndex : ℕ := S.grfNum + MAX_ARF_REGISTER

/-- The indices under which an operand is tracked: its own and, after allocation, the next
one when it may span two. -/
def indices (reg : GenRegister) : List ℕ :=
  if ignoreDependency reg then []
  else
    let index := S.getIndex reg
    if S.policy = .postAlloc && (reg.isdf || reg.isint64 || reg.is_unpacked_long) then
      [index, index + 1]
    else [index]

end SelectionScheduler

namespace SelectionInstruction

def getFlag (insn : SelectionInstruction) : GenRegister :=
  if insn.state.physicalFlag then .flag insn.state.flag insn.state.subFlag
  else .uw1grf insn.state.flagIndex

def modifiesFlag (insn : SelectionInstruction) : Bool :=
  insn.opcode = .CMP || insn.opcode = .I64CMP || insn.state.modFlag

/-- Labels, branches and the other instructions that nothing moves across. -/
def isSchedulingBarrier (insn : SelectionInstruction) : Bool :=
  insn.isBranch || insn.isLabel || insn.opcode = .EOT || insn.opcode = .IF ||
  insn.opcode = .ELSE || insn.opcode = .ENDIF || insn.opcode = .WHILE ||
  insn.opcode = .READ_ARF || insn.opcode = .BARRIER || insn.opcode = .CALC_TIMESTAMP ||
  insn.opcode = .STORE_PROFILING || insn.opcode = .WAIT || insn.opcode = .WORKGROUP_OP

end SelectionInstruction

namespace SelectionScheduler

variable (S : SelectionScheduler)

/-- The indices an instruction reads, in the order of `buildDAG`: sources, predicate,
memory, scratch memory, and memory again for barriers and waits. -/
def readIndices (insn : SelectionInstruction) : List ℕ :=
  insn.src.flatMap S.indices ++
  (if insn.state.predicate ≠ .NONE then S.indices insn.getFlag else []) ++
  (if insn.isRead then [S.getMemoryIndex] else []) ++
  (if insn.opcode = .UNSPILL_REG then [S.getMemoryIndex] else []) ++
  (if insn.opcode = .BARRIER || insn.opcode = .FENCE || insn.opcode = .WAIT ||
    insn.opcode = .WORKGROUP_OP then [S.getMemoryIndex] else [])

/-- The indices an instruction overwrites, in the order of `buildDAG`: destinations, flag,
accumulator, memory, scratch memory. -/
def writeIndices (insn : SelectionInstruction) : List ℕ :=
  insn.dst.flatMap S.indices ++
  (if insn.modifiesFlag then S.indices insn.getFlag else []) ++
  (if insn.modAcc then S.indices .acc else []) ++
  (if insn.isWrite then [S.getMemoryIndex] else []) ++
  (if insn.opcode = .SPILL_REG then [S.getMemoryIndex] else [])

/-- The indices `updateWrites` sets. -/
def updateIndices (insn : SelectionInstruction) : List ℕ :=
  insn.dst.flatMap S.indices ++
  (if insn.modifiesFlag then [S.getIndex insn.getFlag] else []) ++
  (if insn.modAcc then [S.getIndex .acc] else []) ++
  (if insn.isWrite then [S.getMemoryIndex] else []) ++
  (if insn.opcode = .SPILL_REG then [S.getMemoryIndex] else []) ++
  (if insn.opcode = .BARRIER || insn.opcode = .FENCE || insn.opcode = .WAIT then
    [S.getMemoryIndex] else [])

end SelectionScheduler

/-! ### Building the DAG -/

namespace DependencyTracker

variable {n : ℕ}

/-- `node0->dependsOn(node1)` -/
def dependsOn (t : DependencyTracker n) (node0 node1 : Fin n) : Bool :=
  (t.insnNodes node1).children.any fun child => child.node = node0

end DependencyTracker

section Build

variable (S : SelectionScheduler) (bb : List SelectionInstruction)

/-- A new dependency: `node0` depends on `node1`, unless one of them is missing or the
dependency is there already, whatever its mode. -/
def DependencyTracker.addDependency (t : DependencyTracker bb.length)
    (node0 node1 : Option (Fin bb.length)) (depMode : DepMode) : DependencyTracker bb.length :=
  match node0, node1 with
  | some node0, some node1 =>
    if node0 ≠ node1 && !t.dependsOn node0 node1 then
      let depMode :=
        if (bb.get node1).isRead && depMode = .readAfterWrite then .readAfterWriteMemory
        else depMode
      let child := t.insnNodes node0
      let t := { t with
        insnNodes := Function.update t.insnNodes node0 { child with refNum := child.refNum + 1 } }
      let parent := t.insnNodes node1
      { t with
        insnNodes := Function.update t.insnNodes node1
          { parent with children := parent.children ++ [⟨node0, depMode⟩] }
        deps := Function.update t.deps node0 (t.deps node0 ++ [node1]) }
    else t
  | _, _ => t

/-- The node depends on the last writers of the indices. -/
def DependencyTracker.addWriters (t : DependencyTracker bb.length) (node : Fin bb.length)
    (indices : List ℕ) (depMode : DepMode) : DependencyTracker bb.length :=
  indices.foldl (fun t index => t.addDependency bb (some node) (t.nodes index) depMode) t

/-- The next writers of the indices depend on the node. -/
def DependencyTracker.addToWriters (t : DependencyTracker bb.length) (node : Fin bb.length)
    (indices : List ℕ) (depMode : DepMode) : DependencyTracker bb.length :=
  indices.foldl (fun t index => t.addDependency bb (t.nodes index) (some node) depMode) t

def DependencyTracker.updateWrites (t : DependencyTracker bb.length) (node : Fin bb.length) :
    DependencyTracker bb.length :=
  (S.updateIndices (bb.get node)).foldl
    (fun t index => { t with nodes := Function.update t.nodes index (some node) }) t

/-- The first pass: write-after-write and read-after-write dependencies. -/
def trackWriters (t : DependencyTracker bb.length) (node : Fin bb.length) :
    DependencyTracker bb.length :=
  let insn := bb.get node
  let t := t.addWriters bb node (S.readIndices insn) .readAfterWrite
  let t := t.addWriters bb node (S.writeIndices insn) .writeAfterWrite
  t.updateWrites S bb node

/-- The second pass, from the last instruction to the first: write-after-read
dependencies. -/
def trackReaders (t : DependencyTracker bb.length) (node : Fin bb.length) :
    DependencyTracker bb.length :=
  let t := t.addToWriters bb node (S.readIndices (bb.get node)) .writeAfterRead
  t.updateWrites S bb node

/-- The distance of a node to the nearest read that depends on it; `more` is how many
further levels are walked, six less the degree. -/
def DependencyTracker.traverseReadNode (deps : Fin bb.length → List (Fin bb.length)) :
    ℕ → (Fin bb.length → ScheduleDAGNode bb.length) → Fin bb.length →
      Fin bb.length → ScheduleDAGNode bb.length
  | more, insnNodes, node =>
    if (insnNodes node).readDistance ≠ 0x7fffffff then insnNodes
    else
      let insnNodes := Function.update insnNodes node
        { insnNodes node with readDistance := 6 - more }
      match more with
      | 0 => insnNodes
      | more + 1 =>
        (deps node).foldl (fun insnNodes depNode =>
          if (bb.get depNode).isRead then insnNodes
          else traverseReadNode deps more insnNodes depNode) insnNodes

def DependencyTracker.traverseReads (t : DependencyTracker bb.length) :
    DependencyTracker bb.length :=
  { t with
    insnNodes := (List.finRange bb.length).foldl (fun insnNodes node =>
      if (bb.get node).isRead then traverseReadNode bb t.deps 6 insnNodes node
      else insnNodes) t.insnNodes }

def DependencyTracker.makeBarrier (t : DependencyTracker bb.length) (barrier : Fin bb.length) :
    DependencyTracker bb.length :=
  -- the barrier depends on all nodes before it
  let t := ((List.finRange bb.length).filter (· < barrier)).foldl
    (fun t node => t.addDependency bb (some barrier) (some node) .writeAfterWrite) t
  -- all nodes after the barrier depend on it
  ((List.finRange bb.length).filter (barrier < ·)).foldl
    (fun t node => t.addDependency bb (some node) (some barrier) .writeAfterWrite) t

def buildTracker : DependencyTracker bb.length :=
  let insns := List.finRange bb.length
  let t := insns.foldl (trackWriters S bb) {}
  let t := insns.reverse.foldl (trackReaders S bb) { t with nodes := fun _ => none }
  let t := t.traverseReads bb
  (insns.filter fun node => (bb.get node).isSchedulingBarrier).foldl (·.makeBarrier bb ·) t

end Build

/-! ### List scheduling -/

/-- The scheduler between two cycles. -/
@[ext] structure Schedule (n : ℕ) where
  insnNodes : Fin n → ScheduleDAGNode n
  /-- instructions that can be scheduled -/
  ready : List (ScheduleListNode n)
  /-- instructions that are executing -/
  active : List (ScheduleListNode n) := []
  cycle : UInt32 := 0
  /-- the new instruction list of the block -/
  insnList : List (Fin n) := []
  /-- instructions still to schedule -/
  insnNum : ℕ

def buildDAG (S : SelectionScheduler) (bb : List SelectionInstruction) : Schedule bb.length :=
  let t := buildTracker S bb
  { insnNodes := t.insnNodes
    ready := ((List.finRange bb.length).filter fun node => (t.insnNodes node).refNum = 0).map
      fun node => { node := node }
    insnNum := bb.length }

namespace Schedule

variable {n : ℕ}

/-- `--node->refNum` -/
def decRefNum (s : Schedule n) (node : Fin n) : Schedule n :=
  { s with
    insnNodes := Function.update s.insnNodes node
      { s.insnNodes node with refNum := (s.insnNodes node).refNum - 1 } }

/-- The loop of a retiring instruction over its children: the dependencies of some modes
are released, and a child without further dependencies moves to the ready list.  The
answer starts with the children that stay. -/
def releaseChildren (released : DepMode → Bool) :
    List (ScheduleListNode n) → Schedule n → List (ScheduleListNode n) × Schedule n
  | [], s => ([], s)
  | child :: children, s =>
    if released child.depMode then
      let s := s.decRefNum child.node
      if (s.insnNodes child.node).refNum = 0 then
        releaseChildren released children { s with ready := s.ready ++ [child] }
      else
        let rest := releaseChildren released children s
        (child :: rest.1, rest.2)
    else
      let rest := releaseChildren released children s
      (child :: rest.1, rest.2)

/-- Release the children of one node. -/
def release (released : DepMode → Bool) (s : Schedule n) (node : Fin n) : Schedule n :=
  let rest := releaseChildren released (s.insnNodes node).children s
  { rest.2 with
    insnNodes := Function.update rest.2.insnNodes node
      { rest.2.insnNodes node with children := rest.1 } }

def setPreRetired (s : Schedule n) (node : Fin n) : Schedule n :=
  { s with
    insnNodes := Function.update s.insnNodes node { s.insnNodes node with preRetired := true } }

def eraseActive (s : Schedule n) (listNode : ScheduleListNode n) : Schedule n :=
  { s with active := s.active.erase listNode }

/-- First put the write-after-read children to ready. -/
def preRetire (s : Schedule n) (node : Fin n) : Schedule n :=
  (s.setPreRetired node).release (fun m => m = .writeAfterRead) node

/-- The instruction is now complete, if its cycle has come: release the other children. -/
def complete (s : Schedule n) (listNode : ScheduleListNode n) : Schedule n :=
  if (s.insnNodes listNode.node).retiredCycle ≤ s.cycle then
    (s.eraseActive listNode).release (fun m => m ≠ .writeAfterRead) listNode.node
  else s

/-- One round of the loop over the active list. -/
def retireOne (s : Schedule n) (listNode : ScheduleListNode n) : Schedule n :=
  if (s.insnNodes listNode.node).preRetired then s.complete listNode
  else
    let s := s.preRetire listNode.node
    if (s.insnNodes listNode.node).children.length = 0 then s.eraseActive listNode
    else s.complete listNode

/-- Retire all the instructions that finished.  A round erases no other element of the
active list than its own. -/
def retire (s : Schedule n) : Schedule n := s.active.foldl retireOne s

/-- `float cost`; the arithmetic is in double precision. -/
def cost (depMode : DepMode) (readDistance : ℕ) : ℚ :=
  if depMode = .writeAfterRead then 0
  else
    let base : ℚ := if depMode = .writeAfterWrite then 5 else 10
    let distance : ℚ := if readDistance = 0 then roundTo 53 (1 / 10) else readDistance
    roundTo 24 (roundTo 53 (base - roundTo 53 (5 / distance)))

/-- The search for the cheapest ready instruction: its position in the list. -/
def cheapest (insnNodes : Fin n → ScheduleDAGNode n) :
    List (ScheduleListNode n) → ℕ → ℚ → ℕ → ℕ
  | [], _, _, toSchedule => toSchedule
  | listNode :: ready, i, minCost, toSchedule =>
    let cost := cost listNode.depMode (insnNodes listNode.node).readDistance
    if cost < minCost then cheapest insnNodes ready (i + 1) cost i
    else cheapest insnNodes ready (i + 1) minCost toSchedule

end Schedule

section PostSchedule

variable (S : SelectionScheduler) (bb : List SelectionInstruction)

/-- Schedule the ready instruction at a position of the ready list. -/
def Schedule.issue (s : Schedule bb.length) (i : ℕ) (toSchedule : ScheduleListNode bb.length) :
    Schedule bb.length :=
  let insn := bb.get toSchedule.node
  let cycle := s.cycle + SelectionScheduler.getThroughputGen7 insn (S.simdWidth = 8)
  { s with
    cycle := cycle
    ready := s.ready.eraseIdx i
    active := s.active ++ [toSchedule]
    insnNodes := Function.update s.insnNodes toSchedule.node
      { s.insnNodes toSchedule.node with
        retiredCycle := cycle + SelectionScheduler.getLatencyGen7 insn }
    insnList := s.insnList ++ [toSchedule.node]
    insnNum := s.insnNum - 1 }

/-- One round of the loop of `postScheduleDAG`. -/
def Schedule.step (s : Schedule bb.length) : Schedule bb.length :=
  let s := s.retire
  let i := Schedule.cheapest s.insnNodes s.ready 0 1000 0
  match s.ready[i]? with
  | some toSchedule => s.issue S bb i toSchedule
  | none => { s with cycle := s.cycle + 1 }

/-- The loop of `postScheduleDAG`, with an amount of fuel. -/
def postScheduleDAG : ℕ → Schedule bb.length → Option (Schedule bb.length)
  | 0, _ => none
  | fuel + 1, s => if s.insnNum = 0 then some s else postScheduleDAG fuel (s.step S bb)

end PostSchedule

end Backend
