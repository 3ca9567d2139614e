/-
The reductions of the structurizer (`CFGStructurizer` of `ir/structurizer.cpp`, up to
`blockPatternMatch`).

Every basic block starts as a block of its own.  A pattern (two blocks in a row, a loop of one
block, an if with one or two branches) is replaced by one new block that takes over the edges
of its members.  Blocks are objects with an identity: a block is the number of its place in the
vector `blocks`, and the sets of successors and predecessors hold such numbers.  The order in
which a set of pointers is run through is left open (`addr`).

After a loop was replaced, `patternMatch` still looks at the block it started from, whose sets
are then out of date.
-/
import Mathlib

namespace Ir.Structurizer

/-- What the pass reads of a function.  Blocks are numbered in the order of the layout. -/
structure Cfg where
  size : ℕ
  /-- there is a top block -/
  size_pos : 0 < size
  label : Fin size → ℕ
  label_injective : Function.Injective label
  successors : Fin size → Finset (Fin size)
  /-- `checkForBarrier` -/
  barrier : Fin size → Bool
  insnNum : Fin size → ℕ
  /-- the blocks of each loop, its header first -/
  loops : List (List (Fin size))

/-! ### The control tree -/

/-- A block with its children; a compound block carries its number. -/
inductive Tree (n : ℕ) where
  | single (bb : Fin n)
  | serial (id : ℕ) (first second : Tree n)
  | ifThen (id : ℕ) (cond body : Tree n)
  | ifElse (id : ℕ) (cond thenBlock elseBlock : Tree n)
  | selfLoop (id : ℕ) (body : Tree n)

namespace Tree

variable {n : ℕ}

def getEntry : Tree n → Fin n
  | single bb => bb
  | serial _ first _ => first.getEntry
  | ifThen _ cond _ => cond.getEntry
  | ifElse _ cond _ _ => cond.getEntry
  | selfLoop _ body => body.getEntry

/-- `getStructureSequence` -/
def sequence : Tree n → List (Fin n)
  | single bb => [bb]
  | serial _ first second => first.sequence ++ second.sequence
  | ifThen _ cond body => cond.sequence ++ body.sequence
  | ifElse _ cond thenBlock elseBlock =>
    cond.sequence ++ (thenBlock.sequence ++ elseBlock.sequence)
  | selfLoop _ body => body.sequence

end Tree

/-! ### Blocks -/

structure Block (n : ℕ) where
  tree : Tree n
  fallthrough : Option ℕ
  predecessors : Finset ℕ
  successors : Finset ℕ
  hasBarrier : Bool
  canBeHandled : Bool
  inversePredicate : Bool
  insnNum : ℕ

/-- The members of `CFGStructurizer`. -/
structure State (n : ℕ) where
  /-- `blocks.size()` -/
  count : ℕ
  block : ℕ → Block n
  orderedBlks : List ℕ
  /-- the place of the iterator in `orderedBlks` -/
  orderIter : ℕ
  blocks_entry : ℕ
  /-- the three counters together -/
  numPatternMatch : ℕ

namespace State

variable {n : ℕ} (s : State n)

def succ (x : ℕ) : Finset ℕ := (s.block x).successors

def pred (x : ℕ) : Finset ℕ := (s.block x).predecessors

def tree (x : ℕ) : Tree n := (s.block x).tree

def entry (x : ℕ) : Fin n := (s.tree x).getEntry

/-- The basic blocks of a block. -/
def bbs (x : ℕ) : List (Fin n) := (s.tree x).sequence

/-- The elements of a set of blocks. -/
def elems (set : Finset ℕ) : List ℕ := (List.range s.count).filter (· ∈ set)

end State

/-- The block objects of the basic blocks; there is none beyond them. -/
def simpleBlock (cfg : Cfg) (x : ℕ) : Block cfg.size :=
  if h : x < cfg.size then
    { tree := .single ⟨x, h⟩
      fallthrough := if x + 1 < cfg.size then some (x + 1) else none
      predecessors := (Finset.univ.filter fun p => ⟨x, h⟩ ∈ cfg.successors p).image Fin.val
      successors := (cfg.successors ⟨x, h⟩).image Fin.val
      hasBarrier := cfg.barrier ⟨x, h⟩
      canBeHandled := true
      inversePredicate := true
      insnNum := cfg.insnNum ⟨x, h⟩ }
  else ⟨.single ⟨0, cfg.size_pos⟩, none, ∅, ∅, false, true, true, 0⟩

def initializeBlocks (cfg : Cfg) : State cfg.size where
  count := cfg.size
  block := simpleBlock cfg
  orderedBlks := List.range cfg.size
  orderIter := 0
  blocks_entry := 0
  numPatternMatch := 0

/-! ### Replacing a pattern -/

/-- A pattern that was found, with its members; the first one is where it is entered. -/
inductive Pattern where
  | serial (first second : ℕ)
  | ifThen (cond body : ℕ)
  | ifElse (cond thenBlock elseBlock : ℕ)
  | selfLoop (body : ℕ)

namespace Pattern

def members : Pattern → List ℕ
  | serial first second => [first, second]
  | ifThen cond body => [cond, body]
  | ifElse cond thenBlock elseBlock => [cond, thenBlock, elseBlock]
  | selfLoop body => [body]

def head : Pattern → ℕ
  | serial first _ => first
  | ifThen cond _ => cond
  | ifElse cond _ _ => cond
  | selfLoop body => body

def isLoop : Pattern → Bool
  | selfLoop _ => true
  | _ => false

variable {n : ℕ}

def tree (s : State n) (id : ℕ) : Pattern → Tree n
  | serial first second => .serial id (s.tree first) (s.tree second)
  | ifThen cond body => .ifThen id (s.tree cond) (s.tree body)
  | ifElse cond thenBlock elseBlock =>
    .ifElse id (s.tree cond) (s.tree thenBlock) (s.tree elseBlock)
  | selfLoop body => .selfLoop id (s.tree body)

/-- A serial block can be handled if both members can; the others are created as such. -/
def canBeHandled (s : State n) : Pattern → Bool
  | serial first second => (s.block first).canBeHandled && (s.block second).canBeHandled
  | _ => true

/-- The members whose instructions are counted: those of a serial block up to the first that
can not be handled. -/
def counted (s : State n) : Pattern → List ℕ
  | serial first second => [first, second].takeWhile fun x => (s.block x).canBeHandled
  | p => p.members

/-- The object, before it takes over the edges. -/
def newBlock (s : State n) (p : Pattern) : Block n where
  tree := p.tree s s.count
  fallthrough := none
  predecessors := ∅
  successors := ∅
  hasBarrier := false
  canBeHandled := p.canBeHandled s
  inversePredicate := true
  insnNum := ((p.counted s).map fun x => (s.block x).insnNum).sum

end Pattern

section Update

variable {n : ℕ}

/-- One member of the pattern `set` gives its edges to `merged`. -/
def absorb (merged : ℕ) (set : Finset ℕ) (s : State n) (iter : ℕ) : State n :=
  let preds := s.pred iter \ set
  let succs := s.succ iter \ set
  let fall := (s.block iter).fallthrough
  { s with
    block := fun x =>
      let b := s.block x
      if x = merged then
        { b with
          predecessors := b.predecessors ∪ preds
          successors := b.successors ∪ succs
          fallthrough := if fall.any (· ∈ succs) then fall else b.fallthrough }
      else
        { b with
          successors := if x ∈ preds then insert merged (b.successors.erase iter)
            else b.successors
          fallthrough := if x ∈ preds ∧ b.fallthrough = some iter then some merged
            else b.fallthrough
          predecessors := if x ∈ succs then insert merged (b.predecessors.erase iter)
            else b.predecessors } }

/-- An edge between members that goes back in the order of the labels. -/
def Descends (cfg : Cfg) (s : State cfg.size) (members : List ℕ) : Prop :=
  ∃ x ∈ members, ∃ y ∈ members, y ∈ s.succ x ∧ cfg.label (s.entry y) < cfg.label (s.entry x)

instance (cfg : Cfg) (s : State cfg.size) (members : List ℕ) :
    Decidable (Descends cfg s members) :=
  inferInstanceAs (Decidable (∃ x ∈ members, ∃ y ∈ members, _))

/-- An edge from the block to itself. -/
def selfEdge (s : State n) (merged : ℕ) : State n :=
  { s with
    block := Function.update s.block merged
      { s.block merged with
        predecessors := insert merged (s.pred merged)
        successors := insert merged (s.succ merged) } }

def cfgUpdate (cfg : Cfg) (merged : ℕ) (p : Pattern) (s : State cfg.size) : State cfg.size :=
  let s := p.members.foldl (absorb merged p.members.toFinset) s
  if !p.isLoop && decide (Descends cfg s p.members) then selfEdge s merged else s

/-- The loop of `replace` over the ordered blocks; `flag` when `merged` is in. -/
def replaceLoop (merged : ℕ) : List ℕ → Finset ℕ → Bool → List ℕ
  | [], _, _ => []
  | x :: xs, set, flag =>
    if set = ∅ then x :: xs
    else if x ∈ set then
      if flag then replaceLoop merged xs (set.erase x) true
      else merged :: replaceLoop merged xs (set.erase x) true
    else x :: replaceLoop merged xs set flag

def replace (merged : ℕ) (set : Finset ℕ) (s : State n) : State n :=
  { s with
    orderedBlks := replaceLoop merged s.orderedBlks set false
    orderIter := (s.orderedBlks.findIdx? (· ∈ set)).getD s.orderIter }

/-- `insertBlock` -/
def insertBlock (s : State n) (b : Block n) : State n :=
  { s with count := s.count + 1, block := Function.update s.block s.count b }

/-- The new block takes the place of the pattern. -/
def reduce (cfg : Cfg) (s : State cfg.size) (p : Pattern) : State cfg.size :=
  let merged := s.count
  let t := replace merged p.members.toFinset
    (cfgUpdate cfg merged p (insertBlock s (p.newBlock s)))
  { t with
    blocks_entry := if s.blocks_entry ∈ p.members then merged else s.blocks_entry
    numPatternMatch := s.numPatternMatch + 1 }

end Update

/-! ### Patterns -/

section Match

variable (cfg : Cfg) (addr : ℕ → ℕ)

/-- `loopBBs` -/
def loopBBs (s : State cfg.size) (b : ℕ) : List ℕ :=
  match s.tree b with
  | .single bb =>
    match cfg.loops.find? fun l => l.head? = some bb with
    | none => []
    | some l => (l.map Fin.val).reverse
  | _ => if b ∈ s.succ b then [b] else []

def loopPattern (s : State cfg.size) (b : ℕ) : Option Pattern :=
  match loopBBs cfg s b with
  | [x] => if x ∈ s.succ x then some (.selfLoop x) else none
  | _ => none

variable {cfg}

def serialPattern (s : State cfg.size) (b : ℕ) : Option Pattern :=
  if (s.succ b).card ≠ 1 then none
  else if (s.block b).hasBarrier then none
  else
    match s.elems (s.succ b) with
    | [childBlk] =>
      if (s.pred childBlk).card ≠ 1 ∨ (s.block childBlk).hasBarrier then none
      else some (.serial b childBlk)
    | _ => none

/-- A branch of an if: one edge in, one edge out, no barrier, not too long. -/
def isBranch (s : State cfg.size) (x : ℕ) : Bool :=
  (s.succ x).card = 1 && (s.pred x).card = 1 && !(s.block x).hasBarrier &&
    (s.block x).insnNum < 1000

/-- The pattern of an if with the two successors, and whether the predicate keeps its sense. -/
def ifSides (s : State cfg.size) (b TrueBB FalseBB : ℕ) : Option (Pattern × Bool) :=
  let fall := (s.block b).fallthrough
  if isBranch s TrueBB && isBranch s FalseBB && s.succ TrueBB = s.succ FalseBB then
    if fall = some TrueBB then some (.ifElse b TrueBB FalseBB, false)
    else if fall = some FalseBB then some (.ifElse b FalseBB TrueBB, false)
    else none
  else if isBranch s TrueBB && s.succ TrueBB = {FalseBB} then
    some (.ifThen b TrueBB, fall = some FalseBB)
  else if isBranch s FalseBB && s.succ FalseBB = {TrueBB} then
    some (.ifThen b FalseBB, fall = some TrueBB)
  else none

def ifPattern (s : State cfg.size) (b : ℕ) : Option (Pattern × Bool) :=
  match s.elems (s.succ b) with
  | [x, y] =>
    if (s.block b).hasBarrier then none
    else if addr x < addr y then ifSides s b x y
    else ifSides s b y x
  | _ => none

/-- What an if writes to the block it starts from: the sense of the predicate, and that the
members can not all be handled. -/
def markCond (s : State cfg.size) (b : ℕ) (p : Pattern) (keep : Bool) : State cfg.size :=
  { s with
    block := Function.update s.block b
      { s.block b with
        inversePredicate := !keep && (s.block b).inversePredicate
        canBeHandled := p.members.all fun x => (s.block x).canBeHandled } }

def loopPatternMatch (s : State cfg.size) (b : ℕ) : State cfg.size :=
  match loopPattern cfg s b with
  | some p => reduce cfg s p
  | none => s

def serialPatternMatch (s : State cfg.size) (b : ℕ) : State cfg.size :=
  match serialPattern s b with
  | some p => reduce cfg s p
  | none => s

def ifPatternMatch (s : State cfg.size) (b : ℕ) : State cfg.size :=
  match ifPattern addr s b with
  | some (p, keep) => reduce cfg (markCond s b p keep) p
  | none => s

/-- All three look at the same block object. -/
def patternMatch (s : State cfg.size) (b : ℕ) : State cfg.size :=
  ifPatternMatch addr (serialPatternMatch (loopPatternMatch s b) b) b

/-- The inner loop of `blockPatternMatch`, from the place of the iterator to the end. -/
def scan : ℕ → State cfg.size → Option (State cfg.size)
  | 0, _ => none
  | fuel + 1, s =>
    if 1 < s.orderedBlks.length then
      match s.orderedBlks[s.orderIter]? with
      | none => some s
      | some b =>
        let s := patternMatch addr s b
        scan fuel { s with orderIter := s.orderIter + 1 }
    else some s

def blockPatternMatch : ℕ → State cfg.size → Option (State cfg.size)
  | 0, _ => none
  | fuel + 1, s =>
    (scan addr fuel { s with orderIter := 0 }).bind fun t =>
      if t.numPatternMatch = s.numPatternMatch ∨ t.orderedBlks.length ≤ 1 then some t
      else blockPatternMatch fuel t

end Match

end Ir.Structurizer
