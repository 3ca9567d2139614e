/-
The linear-scan register allocator (`GenRegAllocator::Opaque::allocateGRFs` and what it
calls, `gen_reg_allocation.cpp`), as built by default, with `USE_PHASE5A_OPTIMIZATIONS`.

A register is a number.  `Input` is what the earlier passes leave behind: intervals,
the two sorted orders, vectors, flag booleans, declared holes, and the payload
registers with the register file they were carved out of.  The intervals exist
twice, in `intervals` and as copies in `intervalStore_`; only `usedHole` is ever
written after that, so the state keeps that field once for each of the two.

A computation answers `none` when an assertion fails or when a register has to be
spilled: the results are about allocations that complete without spilling.  The
tables that only spilling reads (`offsetReg`, `spillCandidate`, `spilledRegs`) are left
out.  Instruction IDs are integers; fitness values are single-precision numbers.
-/
import Beignet.Backend.AllocatorInvariant
import Beignet.Lib.Rounding

open Rounding

namespace Backend

namespace GenRegAllocator

def INT_MAX : ℤ := 2147483647

def GEN_REG_SIZE : ℤ := 32

def HALF_REGISTER_FILE_OFFSET : ℤ := 32 * 64

structure GenRegInterval where
  minID : ℤ
  maxID : ℤ
  /-- the block of a register that lives in one block only, else negative -/
  blockID : ℤ
  conflictReg : ℕ
  b3OpAlign : Bool
  isHole : Bool

/-- A range in which the register is not needed. -/
structure HoleRegTag where
  startID : ℤ
  endID : ℤ
  regSize : ℤ
  reg : ℕ
  deriving DecidableEq

/-- What the allocation reads. -/
structure Input where
  regNum : ℕ
  /-- `getRegAttrib` -/
  regSize : ℕ → ℤ
  intervals : ℕ → GenRegInterval
  /-- the registers by start, `intervalStore_.byStart` -/
  starting : List ℕ
  /-- the registers by end, `intervalStore_.byEnd` -/
  ending : List ℕ
  vectorMap : ℕ → Option (List ℕ)
  flagBooleans : ℕ → Bool
  /-- `HoleRegPool`, by block -/
  holes : ℤ → List HoleRegTag
  OCL_REUSE_HOLE_REG : Bool
  simdWidth : ℤ
  reservedSpillRegs : ℕ
  regSpillTick : ℕ
  /-- `registerMap_` after `allocateSpecialRegs` -/
  payload : ℕ → Option ℤ
  /-- the register file after `allocateSpecialRegs` -/
  file : SimpleAllocator

/-- History of a register put into a hole: the position of the hole in the pool. -/
structure Placement where
  reg : ℕ
  blockID : ℤ
  pos : ℕ
  deriving DecidableEq

/-- History of one `ctx.deallocate`: the register, the start of the interval for which
room was made, the block that was freed, and the map and the placements before it. -/
structure Freed where
  reg : ℕ
  limit : ℤ
  block : Span
  registerMap : ℕ → Option ℤ
  placed : List Placement

/-- The members of the allocator that the scan changes. -/
structure State where
  registerMap : ℕ → Option ℤ
  HoleRegPool : ℤ → List HoleRegTag
  /-- `intervals[reg].usedHole` -/
  usedHole : ℕ → Bool
  /-- the same field of the copy in `intervalStore_` -/
  storeUsedHole : ℕ → Bool
  /-- the part of the end order from `expiringID` on -/
  ending : List ℕ
  regSpillTick : ℕ
  file : SimpleAllocator
  placed : List Placement
  freed : List Freed

/-- The state in which `allocateGRFs` starts. -/
def init (P : Input) : State where
  registerMap := P.payload
  HoleRegPool := P.holes
  usedHole _ := false
  storeUsedHole _ := false
  ending := P.ending.dropWhile fun reg => (P.intervals reg).maxID = -INT_MAX
  regSpillTick := P.regSpillTick
  file := P.file
  placed := []
  freed := []

/-! ### Expiration -/

/-- `expireReg`; `limit` is for the history only. -/
def expireReg (P : Input) (s : State) (limit : ℤ) (reg : ℕ) : Option (State × Bool) :=
  if s.usedHole reg && !(P.intervals reg).isHole then some (s, true)
  else if P.flagBooleans reg then some (s, false)
  else
    match s.registerMap reg with
    | none => none
    | some offset =>
      if offset < GEN_REG_SIZE then some (s, false)
      else (s.file.deallocate offset).map fun file =>
        let block := ⟨offset, (s.file.allocatedBlocks offset).getD 0⟩
        let f := ⟨reg, limit, block, s.registerMap, s.placed⟩
        ({ s with file := file, freed := s.freed ++ [f] }, true)

/-- The loop of `expireGRF` over the registers still to expire. -/
def expireLoop (P : Input) (limit : ℤ) : List ℕ → State → Bool → Option (State × Bool)
  | [], s, ret => some ({ s with ending := [] }, ret)
  | reg :: rest, s, ret =>
    let toExpire := P.intervals reg
    if toExpire.minID > toExpire.maxID then expireLoop P limit rest s ret
    else if toExpire.maxID ≥ limit then some ({ s with ending := reg :: rest }, ret)
    else
      match expireReg P s limit reg with
      | none => none
      | some (s, expired) => expireLoop P limit rest s (ret || expired)

def expireGRF (P : Input) (s : State) (limit : ℤ) : Option (State × Bool) :=
  expireLoop P limit s.ending s false

/-! ### Allocation of one piece -/

/-- The `while` loop of `allocateReg`.  Every round but the last expires a register,
so the bound is one more than the registers still to expire. -/
def allocateLoop (P : Input) (limit size alignment : ℤ) (direction : Bool) :
    ℕ → State → Option (State × ℤ)
  | 0, _ => none
  | n + 1, s =>
    match s.file.allocate size alignment direction with
    | none => none
    | some (file, grfOffset) =>
      if grfOffset = -1 then
        match expireGRF P { s with file := file } limit with
        | some (s, true) => allocateLoop P limit size alignment direction n s
        | _ => none
      else some ({ s with file := file }, grfOffset)

/-- `(x + 2 ^ k - 1) & ~(2 ^ k - 1)` -/
def alignUp (k : ℕ) (x : ℤ) : ℤ := (x + 2 ^ k - 1) / 2 ^ k * 2 ^ k

def allocateReg (P : Input) (s : State) (reg : ℕ) (size alignment : ℤ) : Option (State × ℤ) :=
  let interval := P.intervals reg
  (if s.regSpillTick % 12 = 0 || P.reservedSpillRegs ≠ 0 then
    (expireGRF P s interval.minID).map Prod.fst
  else some s).bind fun s =>
    let s := { s with regSpillTick := s.regSpillTick + 1 }
    let direction := !(interval.conflictReg ≠ 0 &&
      (s.registerMap interval.conflictReg).any fun offset => offset < HALF_REGISTER_FILE_OFFSET)
    let alignment := alignUp 2 alignment
    let alignment := if interval.b3OpAlign then alignUp 4 alignment else alignment
    allocateLoop P interval.minID size alignment direction (s.ending.length + 1) s

def insertNewReg (s : State) (reg : ℕ) (grfOffset : ℤ) : State :=
  { s with registerMap := Function.update s.registerMap reg (some grfOffset) }

/-! ### Holes -/

/-- A `float`. -/
def f32 (x : ℚ) : ℚ := roundTo 24 x

def IDFitness (a b : ℤ) : ℚ := if a ≥ b then f32 (1 / f32 ((a - b + 1 : ℤ) : ℚ)) else 2

def getHoleRegFitness (interval : GenRegInterval) (tag : HoleRegTag) : ℚ :=
  f32 (IDFitness interval.minID tag.startID + IDFitness tag.endID interval.maxID)

/-- The search for the best hole: its position in the pool. -/
def bestHole (interval : GenRegInterval) (regSize : ℤ) :
    List HoleRegTag → ℕ → ℚ → Option ℕ → Option ℕ
  | [], _, _, best => best
  | tag :: tags, i, last, best =>
    if regSize ≠ tag.regSize then bestHole interval regSize tags (i + 1) last best
    else
      let fitness := getHoleRegFitness interval tag
      if fitness > 2 then bestHole interval regSize tags (i + 1) last best
      else
        let best' := if fitness > last then some i else best
        if fitness > 1 then best'
        else bestHole interval regSize tags (i + 1) (if fitness > last then fitness else last) best'

/-- The first half of `createGenReg`: reuse a hole of the block, if one fits. -/
def reuseHole (P : Input) (s : State) (reg : ℕ) : State :=
  let interval := P.intervals reg
  let b := interval.blockID
  if 0 ≤ b && P.OCL_REUSE_HOLE_REG then
    match bestHole interval (P.regSize reg) (s.HoleRegPool b) 0 0 none with
    | none => s
    | some i =>
      match (s.HoleRegPool b)[i]? with
      | none => s
      | some tag =>
        let pool := (s.HoleRegPool b).set i { tag with startID := interval.maxID + 1 }
        let s := { s with HoleRegPool := Function.update s.HoleRegPool b pool }
        match s.registerMap tag.reg with
        | none => s
        | some grfOffset =>
          { s with
            registerMap := Function.update s.registerMap reg (some grfOffset)
            storeUsedHole := Function.update s.storeUsedHole reg true
            usedHole := Function.update s.usedHole tag.reg true
            placed := s.placed ++ [⟨reg, b, i⟩] }
  else s

def createGenReg (P : Input) (s : State) (reg : ℕ) : Option State :=
  let s := reuseHole P s reg
  if (s.registerMap reg).isSome then some s
  else
    (allocateReg P s reg (P.regSize reg) (P.regSize reg)).bind fun (s, grfOffset) =>
      if grfOffset = 0 then none else some (insertNewReg s reg grfOffset)

/-! ### The scan -/

/-- The registers of a vector get their pieces of the block at `grfOffset`. -/
def placeVector (P : Input) (grfOffset : ℤ) : List ℕ → ℤ → State → Option State
  | [], _, s => some s
  | reg :: regs, subOffset, s =>
    let alignment := P.regSize reg
    let offset := grfOffset + subOffset
    if (s.registerMap reg).isSome then none
    else if offset % alignment ≠ 0 ∧ offset % GEN_REG_SIZE ≠ 0 then none
    else
      let s := insertNewReg s reg offset
      (s.file.splitBlock grfOffset subOffset).bind fun file =>
        placeVector P grfOffset regs (subOffset + alignment) { s with file := file }

def allocateVector (P : Input) (s : State) (reg : ℕ) (vector : List ℕ) : Option State :=
  let size := (vector.map P.regSize).sum
  let maxAlignment := P.simdWidth / 8 * GEN_REG_SIZE
  (allocateReg P s reg size maxAlignment).bind fun (s, grfOffset) =>
    if grfOffset = 0 then none else placeVector P grfOffset vector 0 s

/-- One round of the loop of `allocateGRFs`. -/
def allocateOne (P : Input) (s : State) (reg : ℕ) : Option State :=
  if (P.intervals reg).maxID = -INT_MAX then some s
  else if (s.registerMap reg).isSome then some s
  else if P.flagBooleans reg then some s
  else
    match P.vectorMap reg with
    | some vector => allocateVector P s reg vector
    | none => createGenReg P s reg

def allocateGRFs (P : Input) : Option State := P.starting.foldlM (allocateOne P) (init P)

/-! ### Inputs as the earlier passes make them -/

/-- The bytes a register takes: a payload register owns the block it was given. -/
def Input.width (P : Input) (reg : ℕ) : ℤ :=
  match P.payload reg with
  | some offset => (P.file.allocatedBlocks offset).getD 0
  | none => P.regSize reg

structure Input.WellFormed (P : Input) : Prop where
  regSize_pos : ∀ r, 0 < P.regSize r
  simdWidth : P.simdWidth = 8 ∨ P.simdWidth = 16
  starting : ∀ r, r ∈ P.starting ↔ r < P.regNum
  starting_sorted : P.starting.Pairwise fun r s => (P.intervals r).minID ≤ (P.intervals s).minID
  ending : ∀ r, r ∈ P.ending ↔ r < P.regNum
  ending_nodup : P.ending.Nodup
  ending_sorted : P.ending.Pairwise fun r s => (P.intervals r).maxID ≤ (P.intervals s).maxID
  /-- an unused register has no interval -/
  unused : ∀ r, (P.intervals r).maxID = -INT_MAX → (P.intervals r).maxID < (P.intervals r).minID
  /-- a register that lives in one block is written there -/
  inBlock : ∀ r, 0 ≤ (P.intervals r).blockID → (P.intervals r).maxID ≠ -INT_MAX →
    (P.intervals r).minID ≤ (P.intervals r).maxID
  /-- `coalesce` puts a register into one vector only, and once -/
  vector : ∀ r v, P.vectorMap r = some v → r ∈ v ∧ v.Nodup ∧
    ∀ s ∈ v, s < P.regNum ∧ P.vectorMap s = some v ∧ P.payload s = none ∧
      P.flagBooleans s = false
  /-- a hole is a gap between a use and the next definition of its register -/
  hole : ∀ b, ∀ tag ∈ P.holes b, (P.intervals tag.reg).minID < tag.startID ∧
    tag.endID < (P.intervals tag.reg).maxID ∧ tag.regSize ≤ P.width tag.reg
  /-- the register of a hole is marked -/
  owner : ∀ b, ∀ tag ∈ P.holes b, tag.reg < P.regNum ∧ (P.intervals tag.reg).isHole = true
  /-- payload registers have blocks of their own, and none is a boolean -/
  payload : ∀ r offset, P.payload r = some offset → GEN_REG_SIZE ≤ offset ∧
    (P.file.allocatedBlocks offset).isSome ∧ P.flagBooleans r = false
  payload_inj : ∀ r s offset, P.payload r = some offset → P.payload s = some offset → r = s
  file : ∃ total l, SimpleAllocator.Inv GEN_REG_SIZE total P.file l

end GenRegAllocator

end Backend
