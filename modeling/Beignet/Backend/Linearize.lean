/-
SIMD linearisation of the control flow: the join points (`Context::buildJIPs`, `context.cpp`),
the code selected for labels and branches (`LabelInstruction`, `emitForwardBranch`,
`emitBackwardBranch`, `gen_insn_selection.cpp`), and the thread that runs it.

The blocks of a function are numbered in their order; the last one, `bottom`, returns.  No
block has a barrier or belongs to an if/else structure, so every other block has its own
`IF` and `ENDIF`.  Of the instructions of a block only the control flow is kept; `body`
stands for all others.

A thread runs `W` lanes.  A lane that is not enabled keeps its block IP, and its bit in the
flag of the branch is stale: after a block it may hold anything.  The rest of the program
stands for the instruction pointer.
-/
import Mathlib

namespace Backend

namespace Linearize

/-! ### Functions -/

/-- How a block that does not return ends. -/
inductive Last where
  | fallThrough
  | bra (target : ℕ) (predicated : Bool)

/-- A function, with labels increasing in block order. -/
structure Layout where
  /-- the returning block -/
  bottom : ℕ
  label : ℕ → ℕ
  label_strictMono : StrictMono label
  last : ℕ → Last
  target_le : ∀ {i t p}, last i = .bra t p → t ≤ bottom
  /-- `getMaxLabel`, 0xffff or 0xffffffff -/
  maxLabel : ℕ
  label_lt_maxLabel : label bottom < maxLabel

variable (F : Layout)

/-! ### Join points -/

/-- The label that the branch at the end of a block goes to, if it ends in one. -/
def Layout.target (i : ℕ) : Option ℕ :=
  if i < F.bottom then
    match F.last i with
    | .bra t _ => some (F.label t)
    | .fallThrough => none
  else none

/-- `bwdTargets`: the labels that backward branches go to, each with the label of the block
behind the branch. -/
def bwdTargets : List (ℕ × ℕ) :=
  (List.range F.bottom).filterMap fun i =>
    match F.target i with
    | some target => if target ≤ F.label i then some (target, F.label (i + 1)) else none
    | none => none

/-- `fwdTargets` at the label of a block: the branches that point here expire, the blocks
behind backward branches to here are inserted. -/
def atLabel (fwdTargets : Finset ℕ) (i : ℕ) : Finset ℕ :=
  fwdTargets.erase (F.label i) ∪
    (((bwdTargets F).filter fun b => b.1 = F.label i).map Prod.snd).toFinset

/-- `fwdTargets` when the loop of `buildJIPs` comes to a block. -/
def fwdTargets : ℕ → Finset ℕ
  | 0 => ∅
  | i + 1 =>
    let targets := atLabel F (fwdTargets i) i
    match F.target i with
    | some target => if target ≤ F.label i then targets else insert target targets
    | none => targets

/-- `lower_bound(0)` -/
def lowest (targets : Finset ℕ) : Option ℕ :=
  if h : targets.Nonempty then some (targets.min' h) else none

/-- The JIP of the label of a block. -/
def labelJIP (i : ℕ) : Option ℕ := lowest (atLabel F (fwdTargets F i) i)

/-- The JIP of the branch of a block to the label `target`. -/
def braJIP (i target : ℕ) : ℕ :=
  if target ≤ F.label i then target
  else (insert target (atLabel F (fwdTargets F i) i)).min' (Finset.insert_nonempty ..)

/-! ### The code -/

/-- Labels in the code: those of blocks, and one for the `ENDIF` of each block. -/
inductive CodeLabel where
  | block (label : ℕ)
  | endif (block : ℕ)
  deriving DecidableEq

/-- The predicates of `JMPI`: none, the inverse of any bit of `f0.1`, or any bit of the flag
of the branch. -/
inductive JumpPredicate where
  | always | noneEnabled | anyTaken
  deriving DecidableEq

/-- What a thread executes. -/
inductive Insn where
  | LABEL (label : CodeLabel)
  /-- `f0.1` becomes `blockIP ≤ label`, in all lanes -/
  | CMP (label : ℕ)
  | JMPI (predicate : JumpPredicate) (jip : ℕ)
  /-- predicated by `f0.1` -/
  | IF (endif : CodeLabel)
  | body (block : ℕ)
  /-- `setBlockIP`, predicated by the flag of the branch or not at all -/
  | MOV (predicated : Bool) (label : ℕ)
  | ENDIF
  | EOT
  deriving DecidableEq

/-- `endifOffset != -1`: there is a jump behind the `ENDIF` of the block. -/
def endsInJump (i : ℕ) : Bool :=
  match F.last i with
  | .fallThrough => false
  | .bra t predicated =>
    F.label t ≤ F.label i || (!predicated && F.label (i + 1) ≠ braJIP F i (F.label t))

def emitLabel (i : ℕ) : List Insn :=
  if i = F.bottom then [.LABEL (.block (F.label i))]
  else
    let nextLabel := F.label (i + 1)
    [Insn.LABEL (.block (F.label i)), .CMP (F.label i)] ++
    (match labelJIP F i with
    | some jip =>
      -- the IF does the same when it leads to the next label
      if jip ≠ nextLabel || endsInJump F i then [Insn.JMPI .noneEnabled jip] else []
    | none => []) ++
    [Insn.IF (.endif i)]

def emitENDIF (i : ℕ) : List Insn := [.LABEL (.endif i), .ENDIF]

def emitForwardBranch (i dst : ℕ) (predicated : Bool) : List Insn :=
  if predicated then .MOV true (F.label dst) :: emitENDIF i
  else
    let jip := braJIP F i (F.label dst)
    .MOV false (F.label dst) :: emitENDIF i ++
    (if F.label (i + 1) = jip then [] else [Insn.JMPI .always jip])

def emitBackwardBranch (i dst : ℕ) (predicated : Bool) : List Insn :=
  let jip := braJIP F i (F.label dst)
  if predicated then
    [Insn.MOV false (F.label (i + 1)), .MOV true (F.label dst)] ++ emitENDIF i ++
    [Insn.JMPI .anyTaken jip]
  else .MOV false (F.label dst) :: emitENDIF i ++ [Insn.JMPI .always jip]

/-- The end of a block. -/
def emitLast (i : ℕ) : List Insn :=
  if i = F.bottom then [.EOT]
  else
    match F.last i with
    | .fallThrough => emitENDIF i
    | .bra dst predicated =>
      if F.label dst ≤ F.label i then emitBackwardBranch F i dst predicated
      else emitForwardBranch F i dst predicated

def emitBlock (i : ℕ) : List Insn := emitLabel F i ++ .body i :: emitLast F i

def code : List Insn := (List.range (F.bottom + 1)).flatMap (emitBlock F)

/-- The code from a label on. -/
def goto (label : CodeLabel) : List Insn := (code F).dropWhile fun insn => insn ≠ .LABEL label

/-! ### The thread -/

/-- What a thread is launched with. -/
structure Launch (W : ℕ) where
  active : Fin W → Bool
  /-- the flag of the branch, as a lane sets it in the `k`-th block it executes -/
  outcome : Fin W → ℕ → Bool
  /-- the same flag in a disabled lane, after the `k`-th block of the thread -/
  stale : ℕ → Fin W → Bool

structure Thread (W : ℕ) where
  rest : List Insn
  blockIP : Fin W → ℕ
  /-- `f0.1` -/
  flag : Fin W → Bool
  /-- the flag of the branch -/
  taken : Fin W → Bool
  /-- the enabled lanes -/
  mask : Fin W → Bool
  /-- history: the blocks executed with the lane enabled -/
  trace : Fin W → List ℕ
  /-- history: how many blocks were executed -/
  clock : ℕ

section Run

variable {W : ℕ} (D : Launch W)

/-- The thread after `clearFlagRegister`. -/
def start : Thread W where
  rest := code F
  blockIP lane := if D.active lane then 0 else F.maxLabel
  flag _ := false
  taken _ := false
  mask := D.active
  trace _ := []
  clock := 0

def JumpPredicate.holds (s : Thread W) : JumpPredicate → Bool
  | .always => true
  | .noneEnabled => !decide (∃ lane, s.flag lane = true)
  | .anyTaken => decide (∃ lane, s.taken lane = true)

/-- One instruction; `EOT` ends the thread. -/
def step (s : Thread W) : Thread W :=
  match s.rest with
  | [] => s
  | insn :: rest =>
    match insn with
    | .LABEL _ => { s with rest := rest }
    | .CMP label => { s with rest := rest, flag := fun lane => s.blockIP lane ≤ label }
    | .JMPI predicate jip =>
      { s with rest := if predicate.holds s then goto F (.block jip) else rest }
    | .IF endif =>
      let mask lane := D.active lane && s.flag lane
      { s with
        rest := if ∃ lane, mask lane = true then rest else goto F endif
        mask := mask }
    | .body block =>
      { s with
        rest := rest
        taken := fun lane =>
          if s.mask lane then D.outcome lane (s.trace lane).length else D.stale s.clock lane
        trace := fun lane => if s.mask lane then s.trace lane ++ [block] else s.trace lane
        clock := s.clock + 1 }
    | .MOV predicated label =>
      { s with
        rest := rest
        blockIP := fun lane =>
          if s.mask lane && (!predicated || s.taken lane) then label else s.blockIP lane }
    | .ENDIF => { s with rest := rest, mask := D.active }
    | .EOT => s

/-- The thread after `k` instructions. -/
def thread (k : ℕ) : Thread W := (step F D)^[k] (start F D)

/-- The thread has come to the end. -/
def Thread.ended (s : Thread W) : Prop := ∃ rest, s.rest = .EOT :: rest

end Run

/-! ### A lane alone -/

/-- Where a lane goes from a block. -/
def successor (i : ℕ) (taken : Bool) : Option ℕ :=
  if i < F.bottom then
    match F.last i with
    | .fallThrough => some (i + 1)
    | .bra t predicated => some (if !predicated || taken then t else i + 1)
  else none

/-- The blocks of a lane that runs alone; `none` when it has returned. -/
def path (outcome : ℕ → Bool) : ℕ → Option ℕ
  | 0 => some 0
  | k + 1 => (path outcome k).bind fun i => successor F i (outcome k)

end Linearize

end Backend
