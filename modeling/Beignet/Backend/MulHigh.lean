/-
The instructions emitted for the high half of a 64-bit product: `emitI64MULHIInstruction` of
`GenContext` (Gen7, `gen_context.cpp`) and of `Gen8Context` (`gen8_context.cpp`).

Gen7 keeps a long in two dword registers, one for each half; the operands are `x` and `y`, the
temporaries `a` to `i`.  `ADDC` leaves the carry in the accumulator; `MUL` into the accumulator
multiplies with the low word of its second source and `MACH` adds the rest of the product.
Gen8 has qword registers, whose halves can be operands of their own.

A 16-wide qword instruction of Gen8 is one instruction here (the encoder cuts it in two halves
with their own quarter control), and the value that its `CMP` writes to a temporary is left out:
nothing reads it.
-/
import Beignet.Lib.Simd

set_option linter.constructorNameAsVariable false

namespace Backend

namespace MulHigh

open Simd

/-- What both generators are asked for. -/
def mulHigh (signed : Bool) (x y : BitVec 64) : BitVec 64 :=
  if signed then BitVec.ofInt 64 (x.toInt * y.toInt / 2 ^ 64)
  else BitVec.ofNat 64 (x.toNat * y.toNat / 2 ^ 64)

/-! ### Gen7 -/

namespace Gen7

inductive Reg where
  | xTop | xBottom | yTop | yBottom | destTop | destBottom
  | a | b | c | d | e | f | g | h | i
  deriving DecidableEq

inductive Op where
  | MOV (dst src : Reg)
  | MOVimm (dst : Reg) (imm : BitVec 32)
  /-- from the accumulator -/
  | MOVacc (dst : Reg)
  | NOT (dst src : Reg)
  | ADD (dst src0 src1 : Reg)
  | ADDC (dst src0 src1 : Reg)
  | SHR (dst src : Reg) (imm : ℕ)
  | XOR (dst src0 src1 : Reg)
  /-- `GEN_CONDITIONAL_NZ`, against 0 -/
  | CMP (src : Reg)
  /-- into the accumulator, with the low words of the second source -/
  | MUL (src0 src1 : Reg)
  | MACH (dst src0 src1 : Reg)

def Op.eval (op : Op) (r : Reg → BitVec 32) (acc : ℕ) : Effect Reg (BitVec 32) :=
  match op with
  | MOV dst src => .toReg dst (r src)
  | MOVimm dst imm => .toReg dst imm
  | MOVacc dst => .toReg dst (BitVec.ofNat 32 acc)
  | NOT dst src => .toReg dst (~~~ r src)
  | ADD dst src0 src1 => .toReg dst (r src0 + r src1)
  | ADDC dst src0 src1 =>
    .toRegAcc dst (r src0 + r src1) (((r src0).toNat + (r src1).toNat) / 2 ^ 32)
  | SHR dst src imm => .toReg dst (r src >>> imm)
  | XOR dst src0 src1 => .toReg dst (r src0 ^^^ r src1)
  | CMP src => .toFlag (r src ≠ 0)
  | MUL src0 src1 => .toAcc ((r src0).toNat * ((r src1).toNat % 2 ^ 16))
  | MACH dst src0 src1 =>
    let product := acc + (r src0).toNat * ((r src1).toNat / 2 ^ 16) * 2 ^ 16
    .toRegAcc dst (BitVec.ofNat 32 (product / 2 ^ 32)) (product % 2 ^ 32)

abbrev Insn := Op × Control

def addWithCarry (curr : Control) (dest src0 src1 : Reg) : List Insn :=
  let half := { curr with execWidth := 8 }
  [(Op.ADDC dest src0 src1, half), (.MOVacc src1, half)] ++
  if curr.execWidth = 16 then
    let half := { half with quarter := 1, suboffset := 8 }
    [(Op.ADDC dest src0 src1, half), (.MOVacc src1, half)]
  else []

/-- The quarter control stays that of `curr` for all halves. -/
def I32FullMult (curr : Control) (high low src0 src1 : Reg) : List Insn :=
  (List.range (curr.execWidth / 8)).flatMap fun k =>
    let half := { curr with execWidth := 8, suboffset := 8 * k }
    [(.MUL src0 src1, half), (.MACH high src0 src1, half), (.MOVacc low, half)]

def I64FullAdd (curr : Control) (high1 low1 high2 low2 : Reg) : List Insn :=
  addWithCarry curr low1 low1 low2 ++ addWithCarry curr high1 high1 high2 ++
  [(Op.ADD high1 high1 low2, curr)]

def I64FullMult (curr : Control) (e f g h a b c d : Reg) : List Insn :=
  I32FullMult curr e h b d ++
  I32FullMult curr f g a d ++
  addWithCarry curr g g e ++
  addWithCarry curr f f e ++
  I32FullMult curr e d b c ++
  I64FullAdd curr f g e d ++
  I32FullMult curr b d a c ++
  I64FullAdd curr e f b d

def I64Neg (curr : Control) (high low tmp : Reg) : List Insn :=
  [(Op.NOT high high, curr), (.NOT low low, curr), (.MOVimm tmp 1, curr)] ++
  addWithCarry curr low low tmp ++ [(Op.ADD high high tmp, curr)]

def I64ABS (curr : Control) (sign high low tmp : Reg) : List Insn :=
  let curr' := { curr with noMask := true, predicated := false }
  [(Op.SHR sign high 31, curr), (.CMP sign, curr')] ++
  I64Neg { curr' with predicated := true } high low tmp

/-- The negation of the whole product. -/
def negate (curr : Control) : List Insn :=
  [(Op.NOT .e .e, curr), (.NOT .f .f, curr), (.NOT .g .g, curr), (.NOT .h .h, curr),
    (.MOVimm .i 1, curr)] ++
  addWithCarry curr .h .h .i ++ addWithCarry curr .g .g .i ++ addWithCarry curr .f .f .i ++
  [(Op.ADD .e .e .i, curr)]

/-- The whole product in `e`, `f`, `g` and `h`, as `emitI64MADSATInstruction` makes it too. -/
def fullProduct (curr : Control) (signed : Bool) : List Insn :=
  [(Op.MOV .a .xTop, curr), (.MOV .b .xBottom, curr), (.MOV .c .yTop, curr),
    (.MOV .d .yBottom, curr)] ++
  (if !signed then I64FullMult curr .e .f .g .h .a .b .c .d
  else
    let curr' := { curr with noMask := true, predicated := false }
    I64ABS curr .e .a .b .i ++ I64ABS curr .f .c .d .i ++ [(Op.XOR .i .e .f, curr)] ++
    I64FullMult curr .e .f .g .h .a .b .c .d ++
    (.CMP .i, curr') :: negate { curr' with predicated := true })

def emitI64MULHIInstruction (curr : Control) (signed : Bool) : List Insn :=
  fullProduct curr signed ++
  [(Op.MOV .destTop .e, curr), (.MOV .destBottom .f, curr)]

abbrev State := Simd.State Reg (BitVec 32)

end Gen7

/-! ### Gen8 -/

namespace Gen8

inductive Reg where
  | src0 | src1 | dst_h | dst_l | s0_abs | s1_abs | tmp0 | tmp1 | sign
  deriving DecidableEq

/-- The low or the high dword of a qword. -/
inductive Half where
  | low | high

def Half.get (half : Half) (v : BitVec 64) : BitVec 32 :=
  match half with
  | low => v.setWidth 32
  | high => (v >>> 32).setWidth 32

def Half.set (half : Half) (v : BitVec 64) (d : BitVec 32) : BitVec 64 :=
  match half with
  | low => v.extractLsb' 32 32 ++ d
  | high => d ++ v.extractLsb' 0 32

inductive Op where
  /-- two dwords, into a qword -/
  | MUL (dst : Reg) (src0 : Reg) (half0 : Half) (src1 : Reg) (half1 : Half)
  | ADD (dst src0 src1 : Reg)
  /-- the second source is a dword -/
  | ADDhalf (dst src0 src1 : Reg) (half1 : Half)
  | ADDimm (dst src0 : Reg) (imm : BitVec 64)
  | MOVhalf (dst : Reg) (half : Half) (src : Reg) (half0 : Half)
  /-- with the absolute value of a signed source -/
  | MOVabs (dst src : Reg)
  | SHL (dst src : Reg) (imm : ℕ)
  | SHR (dst src : Reg) (imm : ℕ)
  | XOR (dst src0 src1 : Reg)
  | NOT (dst src : Reg)
  /-- against 0; `zero` says whether it is `GEN_CONDITIONAL_Z` or `GEN_CONDITIONAL_NZ` -/
  | CMP (zero : Bool) (src : Reg)

def Op.eval (op : Op) (r : Reg → BitVec 64) (_ : ℕ) : Effect Reg (BitVec 64) :=
  match op with
  | MUL dst src0 half0 src1 half1 =>
    .toReg dst ((half0.get (r src0)).setWidth 64 * (half1.get (r src1)).setWidth 64)
  | ADD dst src0 src1 => .toReg dst (r src0 + r src1)
  | ADDhalf dst src0 src1 half1 => .toReg dst (r src0 + (half1.get (r src1)).setWidth 64)
  | ADDimm dst src0 imm => .toReg dst (r src0 + imm)
  | MOVhalf dst half src half0 => .toReg dst (half.set (r dst) (half0.get (r src)))
  | MOVabs dst src => .toReg dst (r src).abs
  | SHL dst src imm => .toReg dst (r src <<< imm)
  | SHR dst src imm => .toReg dst (r src >>> imm)
  | XOR dst src0 src1 => .toReg dst (r src0 ^^^ r src1)
  | NOT dst src => .toReg dst (~~~ r src)
  | CMP zero src => .toFlag (if zero then r src = 0 else r src ≠ 0)

abbrev Insn := Op × Control

def calculateFullU64MUL (curr : Control) (src0 src1 dst_h dst_l s0l_s1h s0h_s1l : Reg) :
    List Insn :=
  [(.MUL dst_l src0 .low src1 .low, curr),
    (.MUL dst_h src0 .high src1 .high, curr),
    (.MUL s0l_s1h src0 .low src1 .high, curr),
    (.MUL s0h_s1l src0 .high src1 .low, curr),
    (.ADDhalf s0h_s1l s0h_s1l dst_l .high, curr),
    (.ADDhalf s0h_s1l s0h_s1l s0l_s1h .low, curr),
    (.ADDhalf dst_h dst_h s0l_s1h .high, curr),
    (.SHL s0l_s1h s0h_s1l 32, curr),
    (.MOVhalf dst_l .high s0l_s1h .high, curr),
    (.SHR s0l_s1h s0h_s1l 32, curr),
    (.ADD dst_h dst_h s0l_s1h, curr)]

def calculateFullS64MUL (curr : Control)
    (src0 src1 dst_h dst_l s0_abs s1_abs tmp0 tmp1 sign : Reg) : List Insn :=
  let all := { curr with noMask := true, predicated := false }
  let negative := { curr with noMask := false, predicated := true }
  [(Op.SHR tmp0 src0 63, curr), (.SHR tmp1 src1 63, curr), (.XOR sign tmp0 tmp1, curr),
    (.MOVabs s0_abs src0, curr), (.MOVabs s1_abs src1, curr)] ++
  calculateFullU64MUL curr s0_abs s1_abs dst_h dst_l tmp0 tmp1 ++
  [(Op.CMP false sign, all), (.NOT dst_l dst_l, negative), (.NOT dst_h dst_h, negative),
    (.ADDimm dst_l dst_l 1, negative), (.CMP true dst_l, negative),
    (.ADDimm dst_h dst_h 1, negative)]

def emitI64MULHIInstruction (curr : Control) (signed : Bool) : List Insn :=
  if !signed then calculateFullU64MUL curr .src0 .src1 .dst_h .dst_l .tmp0 .tmp1
  else calculateFullS64MUL curr .src0 .src1 .dst_h .dst_l .s0_abs .s1_abs .tmp0 .tmp1 .sign

abbrev State := Simd.State Reg (BitVec 64)

end Gen8

end MulHigh

end Backend
