/-
Instruction selection on the DAG of a basic block: `buildBasicBlockDAG` and
`matchBasicBlock` of `gen_insn_selection.cpp`, with the patterns they try.

The nodes of the DAG are the instructions of the block, by their places.  `regDAG block i`
is the table of last definitions when instruction `i` is added: the children of a node
are the last definitions of its sources.  Code is generated from the last instruction to
the first.  Only roots are generated; the pattern of a root says which registers the new
code reads and marks the nodes that must be generated for it.  A child that is merged is
not marked: the code of the root computes it again, from its own source registers.

An emitted instruction is kept with its operands in the order of the IR: a register, a
child that is computed from its sources, or a child some of whose own operands are
children again.  How the operands are then swapped, negated or narrowed is not part of
this model.

The DAG records for every child whether it is `mergeable`: whether its sources still have
the same definitions.  No pattern asks.

* `emit` — the pattern that an instruction is generated with;
* `emit_spec` — its operands are those of the instruction, and what they need is marked.
-/
import Mathlib

namespace Munch

/-! ### Instructions -/

abbrev Reg := ℕ

inductive Ty
  | bool | s8 | u8 | s16 | u16 | s32 | u32 | s64 | u64 | half | float | double
  deriving DecidableEq

/-- A constant: its type, its integer value and the bits of its value as a `float`. -/
structure Immediate where
  type : Ty
  integer : ℤ
  floatBits : BitVec 32
  deriving DecidableEq

inductive BinaryOp
  | ADD | SUB | MUL | DIV | REM | POW | AND | OR | XOR | ADDSAT
  | other (code : ℕ)
  deriving DecidableEq

def BinaryOp.commutes : BinaryOp → Bool
  | ADD | ADDSAT | XOR | OR | AND | MUL => true
  | _ => false

/-- The instructions that the patterns tell from the others.  `shuffle` is
`OP_SIMD_SHUFFLE` and the broadcast of a sub-group; `mustEmit` says of another
instruction that it has a side effect, is a branch or is a label. -/
inductive Insn
  | binary (op : BinaryOp) (type : Ty) (dst src0 src1 : Reg)
  | sqr (type : Ty) (dst src : Reg)
  | loadi (imm : Immediate) (dst : Reg)
  | cvt (dstType srcType : Ty) (dst src : Reg)
  | compare (ord : Bool) (code : ℕ) (type : Ty) (dst src0 src1 : Reg)
  | select (type : Ty) (dst pred src0 src1 : Reg)
  | shuffle (code : ℕ) (dst src0 src1 : Reg)
  | other (code : ℕ) (mustEmit : Bool) (dst src : List Reg)
  deriving DecidableEq

namespace Insn

def dsts : Insn → List Reg
  | binary _ _ dst _ _ => [dst]
  | sqr _ dst _ => [dst]
  | loadi _ dst => [dst]
  | cvt _ _ dst _ => [dst]
  | compare _ _ _ dst _ _ => [dst]
  | select _ dst _ _ _ => [dst]
  | shuffle _ dst _ _ => [dst]
  | other _ _ dst _ => dst

def srcs : Insn → List Reg
  | binary _ _ _ src0 src1 => [src0, src1]
  | sqr _ _ src => [src]
  | loadi _ _ => []
  | cvt _ _ _ src => [src]
  | compare _ _ _ _ src0 src1 => [src0, src1]
  | select _ _ pred src0 src1 => [pred, src0, src1]
  | shuffle _ _ src0 src1 => [src0, src1]
  | other _ _ _ src => src

/-- `hasSideEffect`, or a branch or a label. -/
def hasEffect : Insn → Bool
  | other _ mustEmit _ _ => mustEmit
  | _ => false

/-- The result depends on the sources alone. -/
def isPure : Insn → Bool
  | other _ _ _ _ => false
  | _ => true

end Insn

def isRoot (liveOut : List Reg) (x : Insn) : Bool :=
  x.hasEffect || x.dsts.any (· ∈ liveOut)

/-! ### The DAG -/

/-- The last definition of each register in front of an instruction. -/
def regDAG (block : List Insn) : ℕ → Reg → Option ℕ
  | 0, _ => none
  | i + 1, r =>
    match block[i]? with
    | some x => if r ∈ x.dsts then some i else regDAG block i r
    | none => regDAG block i r

/-- Child `s` of a node. -/
def child (block : List Insn) (i s : ℕ) : Option ℕ :=
  (block[i]?).bind fun x => (x.srcs[s]?).bind (regDAG block i)

/-- What `markAllChildren` marks. -/
def children (block : List Insn) (i : ℕ) : List ℕ :=
  ((block[i]?).map fun x => x.srcs.filterMap (regDAG block i)).getD []

/-- Whether the sources of a child still have their definitions. -/
def mergeable (block : List Insn) (i c : ℕ) : Bool :=
  ((block[c]?).map fun x => x.srcs.all fun r => regDAG block c r = regDAG block i r).getD true

/-! ### Patterns -/

/-- A register, or a node computed from its source registers. -/
inductive Leaf
  | reg (r : Reg)
  | node (j : ℕ) (x : Insn)

/-- An operand of an emitted instruction. -/
inductive Operand
  | leaf (l : Leaf)
  | merged (j : ℕ) (x : Insn) (args : List Leaf)

/-- The registers that are read, each with the node that it is read for. -/
def Leaf.reads (owner : ℕ) : Leaf → List (ℕ × Reg)
  | reg r => [(owner, r)]
  | node j x => x.srcs.map fun r => (j, r)

def Operand.reads (owner : ℕ) : Operand → List (ℕ × Reg)
  | leaf l => l.reads owner
  | merged j _ args => args.flatMap (Leaf.reads j)

structure Emission where
  operands : List Operand
  /-- the nodes that become roots -/
  marks : List ℕ

structure Config where
  relaxMath : Bool
  limitRegisterPressure : Bool
  optimizeImmediate : Bool

section Patterns

variable (cfg : Config) (block : List Insn)

def canGetRegisterFromImmediate (imm : Immediate) : Bool :=
  imm.type ≠ .double && imm.type ≠ .s64 && imm.type ≠ .u64

/-- The node and its constant, if it is a `LOADI`. -/
def loadi? (c : Option ℕ) : Option (ℕ × Insn × Immediate) :=
  c.bind fun j => match block[j]? with
    | some (.loadi imm dst) => some (j, .loadi imm dst, imm)
    | _ => none

/-- A constant that fits into an operand. -/
def immediate? (c : Option ℕ) : Option Leaf :=
  (loadi? block c).bind fun p =>
    if canGetRegisterFromImmediate p.2.2 then some (.node p.1 p.2.1) else none

/-- Two sources, of which one may be a constant: the right one, or the left one if the
operands can be swapped.  The last component is what is marked. -/
def getSrcGenRegImm (i : ℕ) (dag0 dag1 : Option ℕ) (src0 src1 : Reg) (swap : Bool) :
    Leaf × Leaf × List ℕ :=
  match (if cfg.optimizeImmediate then immediate? block dag1 else none) with
  | some imm => (.reg src0, imm, dag0.toList)
  | none =>
    match (if cfg.optimizeImmediate && swap then immediate? block dag0 else none) with
    | some imm => (imm, .reg src1, dag1.toList)
    | none => (.reg src0, .reg src1, children block i)

/-- All sources are registers. -/
def emitAll (i : ℕ) (x : Insn) : Emission := ⟨x.srcs.map fun r => .leaf (.reg r), children block i⟩

/-- The node, if it is a product. -/
def mul? (c : Option ℕ) : Option (ℕ × Insn) :=
  c.bind fun j => match block[j]? with
    | some (.binary .MUL t dst a b) => some (j, .binary .MUL t dst a b)
    | _ => none

/-- `MulAddInstructionPattern`: a product is computed together with the sum. -/
def emitMulAdd (i : ℕ) (type : Ty) (src0 src1 : Reg) : Option Emission :=
  if cfg.relaxMath = false ∨ cfg.limitRegisterPressure = true ∨ type ≠ .float then none
  else match mul? block (regDAG block i src0) with
    | some (j, x) => some ⟨[.leaf (.node j x), .leaf (.reg src1)],
        children block j ++ (regDAG block i src1).toList⟩
    | none => match mul? block (regDAG block i src1) with
      | some (j, x) => some ⟨[.leaf (.reg src0), .leaf (.node j x)],
          children block j ++ (regDAG block i src0).toList⟩
      | none => none

/-- The constant as `SqrtDivInstructionPattern` reads it is zero. -/
def immVal_isZero (imm : Immediate) : Bool :=
  match imm.type with
  | .float => imm.floatBits = 0 || imm.floatBits = 0x80000000
  | .s32 | .u32 => imm.integer = 0
  | _ => true

/-- `SqrtDivInstructionPattern`: a division by a square root. -/
def emitSqrtDiv (i : ℕ) (type : Ty) (src0 src1 : Reg) : Option Emission :=
  let child0 := regDAG block i src0
  if type ≠ .float then none
  else (regDAG block i src1).bind fun j => match block[j]? with
    | some (.sqr t dst src) =>
      match loadi? block child0 with
      | some (k, x, imm) =>
        if immVal_isZero imm then
          some ⟨[.leaf (.reg src0), .leaf (.node j (.sqr t dst src))],
            children block j ++ child0.toList⟩
        else some ⟨[.leaf (.node k x), .leaf (.node j (.sqr t dst src))], children block j⟩
      | none => some ⟨[.leaf (.reg src0), .leaf (.node j (.sqr t dst src))],
          children block j ++ child0.toList⟩
    | _ => none

/-- `emitDivRemInst`: a constant that is a power of two becomes a factor. -/
def emitDivRem (i : ℕ) (x : Insn) (op : BinaryOp) (type : Ty) (src0 src1 : Reg) : Emission :=
  match loadi? block (regDAG block i src0) with
  | some (k, y, imm) =>
    if op = .DIV ∧ type = .float ∧ imm.floatBits &&& 0x7FFFFF#32 = 0 then
      ⟨[.leaf (.node k y), .leaf (.reg src1)], (regDAG block i src1).toList⟩
    else emitAll block i x
  | none => emitAll block i x

/-- `is16BitSpecialReg`: the local ids and sizes. -/
def is16BitSpecialReg (r : Reg) : Bool := r < 3 || (9 ≤ r && r < 15)

/-- A constant of 16 bits. -/
def imm16? (c : Option ℕ) : Option Leaf :=
  (loadi? block c).bind fun p =>
    if (p.2.2.type = .u32 ∧ p.2.2.integer ≤ 0xffff) ∨
        (p.2.2.type = .s32 ∧ -32768 ≤ p.2.2.integer ∧ p.2.2.integer ≤ 32767) then
      some (.node p.1 p.2.1)
    else none

/-- `Int32x16MulInstructionPattern`, and `Int32x32MulInstructionPattern` behind it. -/
def emitMul32 (i : ℕ) (x : Insn) (src0 src1 : Reg) : Emission :=
  if is16BitSpecialReg src0 ∨ is16BitSpecialReg src1 then emitAll block i x
  else match imm16? block (regDAG block i src0) with
    | some imm => ⟨[.leaf imm, .leaf (.reg src1)], (regDAG block i src1).toList⟩
    | none => match imm16? block (regDAG block i src1) with
      | some imm => ⟨[.leaf (.reg src0), .leaf imm], (regDAG block i src0).toList⟩
      | none => emitAll block i x

/-- `BinaryInstructionPattern`.  A product of 32 bits is given up again after its sources
were looked at, so that what was marked for them stays marked. -/
def emitBinary (i : ℕ) (x : Insn) (op : BinaryOp) (type : Ty) (src0 src1 : Reg) : Emission :=
  if op = .DIV ∨ op = .REM then emitDivRem block i x op type src0 src1
  else if op = .POW then emitAll block i x
  else
    let p := getSrcGenRegImm cfg block i (regDAG block i src0) (regDAG block i src1) src0 src1
      (op.commutes || op = .SUB)
    if op = .MUL ∧ (type = .u32 ∨ type = .s32) then
      let e := emitMul32 block i x src0 src1
      ⟨e.operands, p.2.2 ++ e.marks⟩
    else ⟨[.leaf p.1, .leaf p.2.1], p.2.2⟩

/-- `SelectModifierInstructionPattern`: a selection between the sources of a comparison by
its result. -/
def emitSelectModifier (i : ℕ) (type : Ty) (pred src0 src1 : Reg) : Option Emission :=
  if type = .s64 ∨ type = .u64 then none
  else (regDAG block i pred).bind fun j => match block[j]? with
    | some (.compare ord code t dst a b) =>
      if a = src0 ∧ regDAG block j a = regDAG block i src0 ∧
          b = src1 ∧ regDAG block j b = regDAG block i src1 ∧ ord = false then
        let p := getSrcGenRegImm cfg block j (regDAG block j a) (regDAG block j b) a b
          (t ≠ .float && t ≠ .double)
        some ⟨[.merged j (.compare ord code t dst a b) [p.1, p.2.1], .leaf p.1, .leaf p.2.1], p.2.2⟩
      else none
    | _ => none

/-- `SelectInstructionPattern`. -/
def emitSelect (i : ℕ) (pred src0 src1 : Reg) : Emission :=
  let p := getSrcGenRegImm cfg block i (regDAG block i src0) (regDAG block i src1) src0 src1 true
  ⟨[.leaf (.reg pred), .leaf p.1, .leaf p.2.1], (regDAG block i pred).toList ++ p.2.2⟩

/-- `lowerI64Reg`: a 64-bit operand that fits into 32 bits, and what is marked for it. -/
def lowerI64Reg (c : Option ℕ) : Option (Leaf × List ℕ) :=
  c.bind fun j => match block[j]? with
    | some (.loadi imm dst) =>
      if (imm.type = .s64 ∧ imm.integer ≤ 0x7fffffff ∧ -0x80000000 ≤ imm.integer) ∨
          (imm.type = .u64 ∧ imm.integer ≤ 0xffffffff) then
        some (.node j (.loadi imm dst), [])
      else none
    | some (.cvt dstType srcType dst src) =>
      if srcType = .u32 ∨ srcType = .s32 ∨ srcType = .float ∨ srcType = .u16 ∨ srcType = .s16 then
        some (.node j (.cvt dstType srcType dst src), [j])
      else none
    | _ => none

/-- The 64-bit operation that `convertI64ToFloat` narrows: the definition of the source in
the table of the whole block. -/
def narrowed? (src : Reg) : Option (ℕ × Insn × Reg × Reg) :=
  (regDAG block block.length src).bind fun d => match block[d]? with
    | some (.binary op t dst a b) =>
      if (op = .AND ∨ op = .OR ∨ op = .XOR) ∧ (regDAG block d a).isSome ∧
          (regDAG block d b).isSome then some (d, .binary op t dst a b, a, b)
      else none
    | _ => none

/-- `ConvertInstructionPattern`.  The constant, if there is one, is lowered last; what was
marked for the other operand before it failed stays marked. -/
def emitConvert (i : ℕ) (x : Insn) (dstType srcType : Ty) (src : Reg) : Emission :=
  if dstType = .float ∧ (srcType = .s64 ∨ srcType = .u64) then
    match narrowed? block src with
    | some (d, y, a, b) =>
      let first := if (loadi? block (regDAG block d a)).isSome then b else a
      match lowerI64Reg block (regDAG block d a), lowerI64Reg block (regDAG block d b) with
      | some (l, marks), some (r, marks') => ⟨[.merged d y [l, r]], marks ++ marks'⟩
      | _, _ => ⟨(emitAll block i x).operands,
          (emitAll block i x).marks ++
            ((lowerI64Reg block (regDAG block d first)).map Prod.snd).getD []⟩
    | none => emitAll block i x
  else emitAll block i x

/-- `SimdShuffleInstructionPattern`, and the broadcast of `SubGroupInstructionPattern`. -/
def emitShuffle (i : ℕ) (x : Insn) (src0 src1 : Reg) : Emission :=
  match immediate? block (regDAG block i src1) with
  | some imm => ⟨[.leaf (.reg src0), .leaf imm], (regDAG block i src0).toList⟩
  | none => emitAll block i x

/-- The patterns of an instruction, from the best to the worst. -/
def emit (i : ℕ) (x : Insn) : Emission :=
  match x with
  | .binary op type _ src0 src1 =>
    if op = .ADD ∨ op = .SUB then
      (emitMulAdd cfg block i type src0 src1).getD (emitBinary cfg block i x op type src0 src1)
    else if op = .DIV then
      (emitSqrtDiv block i type src0 src1).getD (emitBinary cfg block i x op type src0 src1)
    else emitBinary cfg block i x op type src0 src1
  | .compare _ _ type _ src0 src1 =>
    let p := getSrcGenRegImm cfg block i (regDAG block i src0) (regDAG block i src1) src0 src1
      (type ≠ .float && type ≠ .double)
    ⟨[.leaf p.1, .leaf p.2.1], p.2.2⟩
  | .select type _ pred src0 src1 =>
    (emitSelectModifier cfg block i type pred src0 src1).getD
      (emitSelect cfg block i pred src0 src1)
  | .cvt dstType srcType _ src => emitConvert block i x dstType srcType src
  | .shuffle _ _ src0 src1 => emitShuffle block i x src0 src1
  | _ => emitAll block i x

/-! ### Matching -/

/-- An emitted instruction. -/
structure Selected where
  index : ℕ
  insn : Insn
  operands : List Operand

/-- The loop from the last instruction to the first: each fragment is put in front of the
code that is there. -/
def matchLoop : ℕ → (ℕ → Bool) → List Selected → List Selected
  | 0, _, code => code
  | i + 1, isRoot, code =>
    match block[i]? with
    | some x =>
      if isRoot i then
        let e := emit cfg block i x
        matchLoop i (fun j => isRoot j || decide (j ∈ e.marks)) (⟨i, x, e.operands⟩ :: code)
      else matchLoop i isRoot code
    | none => matchLoop i isRoot code

def matchBasicBlock (liveOut : List Reg) : List Selected :=
  matchLoop cfg block block.length
    (fun i => ((block[i]?).map (isRoot liveOut)).getD false) []

end Patterns

/-! ### What the patterns emit -/

section Spec

variable {cfg : Config} {block : List Insn}

/-- A node that is generated if the marked ones are: marked itself, or marked by the
pattern of a marked node between it and its user. -/
def Needed (cfg : Config) (block : List Insn) (marks : List ℕ) (owner c : ℕ) : Prop :=
  c ∈ marks ∨ ∃ k ∈ marks, k < owner ∧ ∃ x, block[k]? = some x ∧ c < k ∧
    c ∈ (emit cfg block k x).marks

/-- The leaf stands for register `r` of node `owner`, and the definitions that it reads
are generated. -/
def Leaf.Ok (cfg : Config) (block : List Insn) (marks : List ℕ) (owner : ℕ) (r : Reg) :
    Leaf → Prop
  | .reg r' => r' = r ∧ ∀ c, regDAG block owner r = some c → Needed cfg block marks owner c
  | .node j x => regDAG block owner r = some j ∧ block[j]? = some x ∧ x.isPure = true ∧
      ∀ c ∈ children block j, Needed cfg block marks owner c

def Operand.Ok (cfg : Config) (block : List Insn) (marks : List ℕ) (i : ℕ) (r : Reg) :
    Operand → Prop
  | .leaf l => l.Ok cfg block marks i r
  | .merged j x args => block[j]? = some x ∧ x.isPure = true ∧
      List.Forall₂ (fun r' l => Leaf.Ok cfg block marks j r' l) x.srcs args

/-- The operands stand for the sources of the instruction. -/
def Emission.Ok (cfg : Config) (block : List Insn) (i : ℕ) (x : Insn) (e : Emission) : Prop :=
  List.Forall₂ (fun r op => Operand.Ok cfg block e.marks i r op) x.srcs e.operands

theorem Needed.mono {marks marks' : List ℕ} (h : marks ⊆ marks') {owner owner' c : ℕ}
    (hle : owner ≤ owner') (hc : Needed cfg block marks owner c) :
    Needed cfg block marks' owner' c := by
  rcases hc with hc | ⟨k, hk, hlt, hx⟩
  · exact Or.inl (h hc)
  · exact Or.inr ⟨k, h hk, Nat.lt_of_lt_of_le hlt hle, hx⟩

theorem Leaf.Ok.mono {marks marks' : List ℕ} (h : marks ⊆ marks') {owner : ℕ} {r : Reg} {l : Leaf}
    (hl : l.Ok cfg block marks owner r) : l.Ok cfg block marks' owner r := by
  cases l with
  | reg r' => exact ⟨hl.1, fun c hc => (hl.2 c hc).mono h (Nat.le_refl _)⟩
  | node j x =>
    exact ⟨hl.1, hl.2.1, hl.2.2.1, fun c hc => (hl.2.2.2 c hc).mono h (Nat.le_refl _)⟩

theorem Operand.Ok.mono {marks marks' : List ℕ} (h : marks ⊆ marks') {i : ℕ} {r : Reg}
    {op : Operand} (hop : op.Ok cfg block marks i r) : op.Ok cfg block marks' i r := by
  cases op with
  | leaf l => exact Leaf.Ok.mono h hop
  | merged j x args => exact ⟨hop.1, hop.2.1, hop.2.2.imp fun _ _ hl => hl.mono h⟩

theorem regDAG_lt {i c : ℕ} {r : Reg} (h : regDAG block i r = some c) : c < i := by
  induction i with
  | zero => cases h
  | succ i ih =>
    rw [regDAG] at h
    split at h
    · split at h
      · rw [Option.some_inj] at h
        omega
      · exact Nat.lt_succ_of_lt (ih h)
    · exact Nat.lt_succ_of_lt (ih h)

theorem mem_children {i c : ℕ} {x : Insn} {r : Reg} (hx : block[i]? = some x) (hr : r ∈ x.srcs)
    (hc : regDAG block i r = some c) : c ∈ children block i := by
  rw [children, hx, Option.map_some, Option.getD_some]
  exact List.mem_filterMap.mpr ⟨r, hr, hc⟩

theorem Leaf.Ok.of_marks {marks : List ℕ} {owner : ℕ} {r : Reg}
    (h : (regDAG block owner r).toList ⊆ marks) : (Leaf.reg r).Ok cfg block marks owner r :=
  ⟨rfl, fun c hc => Or.inl (h (by simp [hc]))⟩

theorem Leaf.Ok.of_children {marks : List ℕ} {i : ℕ} {x : Insn} {r : Reg}
    (hx : block[i]? = some x) (hr : r ∈ x.srcs) (h : children block i ⊆ marks) :
    (Leaf.reg r).Ok cfg block marks i r :=
  ⟨rfl, fun _ hc => Or.inl (h (mem_children hx hr hc))⟩

theorem Leaf.Ok.of_node {marks : List ℕ} {owner j : ℕ} {x : Insn} {r : Reg}
    (hr : regDAG block owner r = some j) (hx : block[j]? = some x) (hpure : x.isPure = true)
    (h : children block j ⊆ marks) : (Leaf.node j x).Ok cfg block marks owner r :=
  ⟨hr, hx, hpure, fun _ hc => Or.inl (h hc)⟩

theorem loadi?_eq_some {c : Option ℕ} {p : ℕ × Insn × Immediate} (h : loadi? block c = some p) :
    c = some p.1 ∧ block[p.1]? = some p.2.1 ∧ ∃ dst, p.2.1 = .loadi p.2.2 dst := by
  rw [loadi?, Option.bind_eq_some_iff] at h
  obtain ⟨j, rfl, h⟩ := h
  split at h
  · rename_i imm dst hx
    rw [Option.some_inj] at h
    subst h
    exact ⟨rfl, hx, dst, rfl⟩
  · cases h

/-- A constant needs nothing. -/
theorem loadi?_ok {owner : ℕ} {r : Reg} {p : ℕ × Insn × Immediate} (marks : List ℕ)
    (h : loadi? block (regDAG block owner r) = some p) :
    (Leaf.node p.1 p.2.1).Ok cfg block marks owner r := by
  obtain ⟨hr, hx, dst, hload⟩ := loadi?_eq_some h
  refine Leaf.Ok.of_node hr hx (by rw [hload]; rfl) ?_
  rw [children, hx, hload]
  simp [Insn.srcs]

theorem immediate?_ok {owner : ℕ} {r : Reg} {l : Leaf} (marks : List ℕ)
    (h : immediate? block (regDAG block owner r) = some l) : l.Ok cfg block marks owner r := by
  obtain ⟨p, hp, h⟩ := Option.bind_eq_some_iff.mp h
  split at h
  · rw [Option.some_inj] at h
    subst h
    exact loadi?_ok marks hp
  · cases h

theorem imm16?_ok {owner : ℕ} {r : Reg} {l : Leaf} (marks : List ℕ)
    (h : imm16? block (regDAG block owner r) = some l) : l.Ok cfg block marks owner r := by
  obtain ⟨p, hp, h⟩ := Option.bind_eq_some_iff.mp h
  split at h
  · rw [Option.some_inj] at h
    subst h
    exact loadi?_ok marks hp
  · cases h

theorem getSrcGenRegImm_ok (cfg : Config) {i : ℕ} {x : Insn} {src0 src1 : Reg}
    (hx : block[i]? = some x) (swap : Bool) (h0 : src0 ∈ x.srcs) (h1 : src1 ∈ x.srcs) :
    let p := getSrcGenRegImm cfg block i (regDAG block i src0) (regDAG block i src1) src0 src1 swap
    p.1.Ok cfg block p.2.2 i src0 ∧ p.2.1.Ok cfg block p.2.2 i src1 := by
  intro p
  have hp : p = getSrcGenRegImm cfg block i (regDAG block i src0) (regDAG block i src1) src0 src1
    swap := rfl
  rw [getSrcGenRegImm] at hp
  split at hp
  · rename_i imm himm
    rw [hp]
    split at himm
    · exact ⟨Leaf.Ok.of_marks (List.Subset.refl _), immediate?_ok _ himm⟩
    · cases himm
  split at hp
  · rename_i imm himm
    rw [hp]
    split at himm
    · exact ⟨immediate?_ok _ himm, Leaf.Ok.of_marks (List.Subset.refl _)⟩
    · cases himm
  · rw [hp]
    exact ⟨Leaf.Ok.of_children hx h0 (List.Subset.refl _),
      Leaf.Ok.of_children hx h1 (List.Subset.refl _)⟩

theorem emitAll_ok {i : ℕ} {x : Insn} (hx : block[i]? = some x) :
    (emitAll block i x).Ok cfg block i x := by
  rw [Emission.Ok, emitAll, List.forall₂_map_right_iff, List.forall₂_same]
  exact fun r hr => Leaf.Ok.of_children hx hr (List.Subset.refl _)

theorem Emission.Ok.two {i : ℕ} {x : Insn} {e : Emission} {r0 r1 : Reg} {l0 l1 : Operand}
    (hsrcs : x.srcs = [r0, r1]) (hops : e.operands = [l0, l1])
    (h0 : l0.Ok cfg block e.marks i r0) (h1 : l1.Ok cfg block e.marks i r1) :
    e.Ok cfg block i x := by
  rw [Emission.Ok, hsrcs, hops]
  exact .cons h0 (.cons h1 .nil)

theorem mul?_eq_some {c : Option ℕ} {p : ℕ × Insn} (h : mul? block c = some p) :
    c = some p.1 ∧ block[p.1]? = some p.2 ∧ p.2.isPure = true := by
  rw [mul?, Option.bind_eq_some_iff] at h
  obtain ⟨j, rfl, h⟩ := h
  split at h
  · rename_i t dst a b hx
    rw [Option.some_inj] at h
    subst h
    exact ⟨rfl, hx, rfl⟩
  · cases h

theorem emitMulAdd_ok {i : ℕ} {x : Insn} {type : Ty} {src0 src1 : Reg} {e : Emission}
    (hsrcs : x.srcs = [src0, src1]) (h : emitMulAdd cfg block i type src0 src1 = some e) :
    e.Ok cfg block i x := by
  rw [emitMulAdd] at h
  split at h
  · cases h
  split at h
  · rename_i j y hmul
    obtain ⟨hr, hy, hpure⟩ := mul?_eq_some hmul
    rw [Option.some_inj] at h
    subst h
    refine Emission.Ok.two hsrcs rfl ?_ ?_
    · exact Leaf.Ok.of_node hr hy hpure (List.subset_append_left ..)
    · exact Leaf.Ok.of_marks (List.subset_append_right ..)
  split at h
  · rename_i j y hmul
    obtain ⟨hr, hy, hpure⟩ := mul?_eq_some hmul
    rw [Option.some_inj] at h
    subst h
    refine Emission.Ok.two hsrcs rfl ?_ ?_
    · exact Leaf.Ok.of_marks (List.subset_append_right ..)
    · exact Leaf.Ok.of_node hr hy hpure (List.subset_append_left ..)
  · cases h

theorem emitSqrtDiv_ok {i : ℕ} {x : Insn} {type : Ty} {src0 src1 : Reg} {e : Emission}
    (hsrcs : x.srcs = [src0, src1]) (h : emitSqrtDiv block i type src0 src1 = some e) :
    e.Ok cfg block i x := by
  simp only [emitSqrtDiv] at h
  split at h
  · cases h
  rw [Option.bind_eq_some_iff] at h
  obtain ⟨j, hr, h⟩ := h
  split at h
  swap
  · cases h
  rename_i t dst src hy
  -- the root is computed again from its source
  have hroot : ∀ marks, children block j ⊆ marks →
      (Leaf.node j (.sqr t dst src)).Ok cfg block marks i src1 :=
    fun marks hm => Leaf.Ok.of_node hr hy rfl hm
  split at h
  · rename_i k y imm hload
    split at h <;> rw [Option.some_inj] at h <;> subst h
    · exact Emission.Ok.two hsrcs rfl (Leaf.Ok.of_marks (List.subset_append_right ..))
        (hroot _ (List.subset_append_left ..))
    · exact Emission.Ok.two hsrcs rfl (loadi?_ok _ hload) (hroot _ (List.Subset.refl _))
  · rw [Option.some_inj] at h
    subst h
    exact Emission.Ok.two hsrcs rfl (Leaf.Ok.of_marks (List.subset_append_right ..))
      (hroot _ (List.subset_append_left ..))

theorem emitDivRem_ok {i : ℕ} {x : Insn} {op : BinaryOp} {type : Ty} {src0 src1 : Reg}
    (hx : block[i]? = some x) (hsrcs : x.srcs = [src0, src1]) :
    (emitDivRem block i x op type src0 src1).Ok cfg block i x := by
  rw [emitDivRem]
  split
  · rename_i k y imm hload
    split
    · exact Emission.Ok.two hsrcs rfl (loadi?_ok _ hload) (Leaf.Ok.of_marks (List.Subset.refl _))
    · exact emitAll_ok hx
  · exact emitAll_ok hx

theorem emitMul32_ok {i : ℕ} {x : Insn} {src0 src1 : Reg} (hx : block[i]? = some x)
    (hsrcs : x.srcs = [src0, src1]) : (emitMul32 block i x src0 src1).Ok cfg block i x := by
  rw [emitMul32]
  split
  · exact emitAll_ok hx
  split
  · rename_i imm himm
    exact Emission.Ok.two hsrcs rfl (imm16?_ok _ himm) (Leaf.Ok.of_marks (List.Subset.refl _))
  split
  · rename_i imm himm
    exact Emission.Ok.two hsrcs rfl (Leaf.Ok.of_marks (List.Subset.refl _)) (imm16?_ok _ himm)
  · exact emitAll_ok hx

theorem emitBinary_ok {i : ℕ} {x : Insn} {op : BinaryOp} {type : Ty} {src0 src1 : Reg}
    (hx : block[i]? = some x) (hsrcs : x.srcs = [src0, src1]) :
    (emitBinary cfg block i x op type src0 src1).Ok cfg block i x := by
  rw [emitBinary]
  split
  · exact emitDivRem_ok hx hsrcs
  split
  · exact emitAll_ok hx
  obtain ⟨hl, hr⟩ := getSrcGenRegImm_ok cfg hx (op.commutes || decide (op = .SUB))
    (by simp [hsrcs] : src0 ∈ x.srcs) (by simp [hsrcs] : src1 ∈ x.srcs)
  simp only
  split
  · have hmul : (emitMul32 block i x src0 src1).Ok cfg block i x := emitMul32_ok hx hsrcs
    exact List.Forall₂.imp (fun _ _ h => h.mono (List.subset_append_right ..)) hmul
  · exact Emission.Ok.two hsrcs rfl hl hr

theorem emitSelect_ok {i : ℕ} {type : Ty} {dst pred src0 src1 : Reg}
    (hx : block[i]? = some (.select type dst pred src0 src1)) :
    (emitSelect cfg block i pred src0 src1).Ok cfg block i (.select type dst pred src0 src1) := by
  obtain ⟨hl, hr⟩ := getSrcGenRegImm_ok cfg hx true (List.mem_cons_of_mem _ List.mem_cons_self)
    (List.mem_cons_of_mem _ (List.mem_cons_of_mem _ List.mem_cons_self))
  refine .cons (Leaf.Ok.of_marks (List.subset_append_left ..)) (.cons ?_ (.cons ?_ .nil))
  · exact hl.mono (List.subset_append_right ..)
  · exact hr.mono (List.subset_append_right ..)

/-- A leaf that stands for a source of a comparison stands for the same register of the
selection, when both have the same definition of it. -/
theorem Leaf.Ok.change_owner {marks : List ℕ} {i j : ℕ} {r : Reg} {l : Leaf} (hle : j ≤ i)
    (hsame : regDAG block j r = regDAG block i r) (h : l.Ok cfg block marks j r) :
    l.Ok cfg block marks i r := by
  cases l with
  | reg r' =>
    exact ⟨h.1, fun c hc => (h.2 c (hsame.trans hc)).mono (List.Subset.refl _) hle⟩
  | node k x =>
    obtain ⟨hr, hx, hpure, hneeded⟩ := h
    exact ⟨hsame.symm.trans hr, hx, hpure,
      fun c hc => (hneeded c hc).mono (List.Subset.refl _) hle⟩

theorem emitSelectModifier_ok {i : ℕ} {x : Insn} {type : Ty} {pred src0 src1 : Reg} {e : Emission}
    (hsrcs : x.srcs = [pred, src0, src1])
    (h : emitSelectModifier cfg block i type pred src0 src1 = some e) : e.Ok cfg block i x := by
  rw [emitSelectModifier] at h
  split at h
  · cases h
  rw [Option.bind_eq_some_iff] at h
  obtain ⟨j, hj, h⟩ := h
  split at h
  swap
  · cases h
  rename_i ord code t dst a b hy
  split at h
  swap
  · cases h
  rename_i hmatch
  obtain ⟨rfl, hsame0, rfl, hsame1, -⟩ := hmatch
  obtain ⟨hl, hr⟩ := getSrcGenRegImm_ok cfg hy (t ≠ .float && t ≠ .double) List.mem_cons_self
    (List.mem_cons_of_mem _ List.mem_cons_self)
  simp only [Option.some_inj] at h
  subst h
  rw [Emission.Ok, hsrcs]
  refine .cons ⟨hy, rfl, .cons hl (.cons hr .nil)⟩ (.cons ?_ (.cons ?_ .nil))
  · exact hl.change_owner (Nat.le_of_lt (regDAG_lt hj)) hsame0
  · exact hr.change_owner (Nat.le_of_lt (regDAG_lt hj)) hsame1

/-- The conversion that is read through is generated for itself, and so are its sources. -/
theorem lowerI64Reg_ok {owner : ℕ} {r : Reg} {l : Leaf} {m marks : List ℕ}
    (h : lowerI64Reg block (regDAG block owner r) = some (l, m)) (hm : m ⊆ marks) :
    l.Ok cfg block marks owner r := by
  rw [lowerI64Reg, Option.bind_eq_some_iff] at h
  obtain ⟨j, hr, h⟩ := h
  split at h
  · rename_i imm dst hx
    split at h
    · simp only [Option.some.injEq, Prod.mk.injEq] at h
      obtain ⟨rfl, -⟩ := h
      refine Leaf.Ok.of_node hr hx rfl ?_
      rw [children, hx]
      simp [Insn.srcs]
    · cases h
  · rename_i dstType srcType dst src hx
    split at h
    · rename_i hsrc
      simp only [Option.some.injEq, Prod.mk.injEq] at h
      obtain ⟨rfl, rfl⟩ := h
      refine ⟨hr, hx, rfl, fun c hc =>
        Or.inr ⟨j, hm List.mem_cons_self, regDAG_lt hr, _, hx, ?_, ?_⟩⟩
      · rw [children, hx, Option.map_some, Option.getD_some, List.mem_filterMap] at hc
        obtain ⟨r', -, hc⟩ := hc
        exact regDAG_lt hc
      · -- a conversion from 32 bits is not narrowed itself
        have hwide : ¬ (dstType = .float ∧ (srcType = .s64 ∨ srcType = .u64)) := by
          rintro ⟨-, rfl | rfl⟩ <;> simp at hsrc
        rw [emit, emitConvert, if_neg hwide]
        exact hc
    · cases h
  · cases h

theorem narrowed?_eq_some {src : Reg} {d : ℕ} {y : Insn} {a b : Reg}
    (h : narrowed? block src = some (d, y, a, b)) :
    block[d]? = some y ∧ y.isPure = true ∧ y.srcs = [a, b] := by
  rw [narrowed?, Option.bind_eq_some_iff] at h
  obtain ⟨d', -, h⟩ := h
  split at h
  · rename_i op t dst' a' b' hblock
    split at h
    · simp only [Option.some.injEq, Prod.mk.injEq] at h
      obtain ⟨rfl, rfl, rfl, rfl⟩ := h
      exact ⟨hblock, rfl, rfl⟩
    · cases h
  · cases h

theorem emitConvert_ok {i : ℕ} {dstType srcType : Ty} {dst src : Reg}
    (hx : block[i]? = some (.cvt dstType srcType dst src)) :
    (emitConvert block i (.cvt dstType srcType dst src) dstType srcType src).Ok cfg block i
      (.cvt dstType srcType dst src) := by
  have hall := (emitAll_ok hx : (emitAll block i _).Ok cfg block i _)
  rw [emitConvert]
  split
  · split
    · rename_i d y a b hnarrow
      obtain ⟨hblock, hpure, hsrcs⟩ := narrowed?_eq_some hnarrow
      simp only
      split
      · rename_i l m r m' hl hr
        refine .cons ⟨hblock, hpure, ?_⟩ .nil
        rw [hsrcs]
        refine .cons ?_ (.cons ?_ .nil)
        · exact lowerI64Reg_ok hl (List.subset_append_left ..)
        · exact lowerI64Reg_ok hr (List.subset_append_right ..)
      · exact List.Forall₂.imp (fun _ _ h => h.mono (List.subset_append_left ..)) hall
    · exact hall
  · exact hall

/-- The operands of an emitted instruction stand for its sources, and the definitions
that they read are generated. -/
theorem emit_spec (cfg : Config) {i : ℕ} {x : Insn} (hx : block[i]? = some x) :
    (emit cfg block i x).Ok cfg block i x := by
  cases x with
  | binary op type dst src0 src1 =>
    have hbinary : (emitBinary cfg block i (.binary op type dst src0 src1) op type src0 src1).Ok
      cfg block i (.binary op type dst src0 src1) := emitBinary_ok hx rfl
    rw [emit]
    split
    · cases h : emitMulAdd cfg block i type src0 src1 with
      | none => exact hbinary
      | some e => exact emitMulAdd_ok rfl h
    split
    · cases h : emitSqrtDiv block i type src0 src1 with
      | none => exact hbinary
      | some e => exact emitSqrtDiv_ok rfl h
    · exact hbinary
  | compare ord code type dst src0 src1 =>
    obtain ⟨hl, hr⟩ := getSrcGenRegImm_ok cfg hx (type ≠ .float && type ≠ .double)
      List.mem_cons_self (List.mem_cons_of_mem _ List.mem_cons_self)
    exact Emission.Ok.two rfl rfl hl hr
  | select type dst pred src0 src1 =>
    rw [emit]
    cases h : emitSelectModifier cfg block i type pred src0 src1 with
    | none => exact emitSelect_ok hx
    | some e => exact emitSelectModifier_ok rfl h
  | cvt dstType srcType dst src => exact emitConvert_ok hx
  | shuffle code dst src0 src1 =>
    rw [emit, emitShuffle]
    split
    · rename_i imm himm
      exact Emission.Ok.two rfl rfl (Leaf.Ok.of_marks (List.Subset.refl _)) (immediate?_ok _ himm)
    · exact emitAll_ok hx
  | sqr type dst src => exact emitAll_ok hx
  | loadi imm dst => exact emitAll_ok hx
  | other code mustEmit dst src => exact emitAll_ok hx

end Spec

end Munch
