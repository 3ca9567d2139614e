/-
Selection instructions (`gen_insn_selection.hpp`, `gen_insn_selection.hxx`) and the
registers they name (`GenRegister` and `GenInstructionState`, `gen_register.hpp`).

An operand is a register with a region: `execWidth` channels are laid out in rows of
`width` elements, `hstride` apart, the rows `vstride` apart, from byte `subnr` of GRF
`nr` on (of the place of the virtual register, when the operand is not physical).
Bit-fields are naturals; the encoded strides and widths are enumerations with the
sizes of `hstride_size`, `vstride_size` and `width_size`.
-/
import Mathlib

namespace Backend

/-! ### Registers -/

/-- The `GEN_TYPE_*` of `gen_defs.hpp`. -/
inductive GenType where
  | UD | D | UW | W | UB | B | DF | F | UL | L | HF | HF_IMM
  deriving DecidableEq

def typeSize : GenType → ℕ
  | .DF | .UL | .L => 8
  | .UD | .D | .F => 4
  | .UW | .W | .HF | .HF_IMM => 2
  | .UB | .B => 1

/-- The register files: `GEN_ARCHITECTURE_REGISTER_FILE`, `GEN_GENERAL_REGISTER_FILE` and
`GEN_IMMEDIATE_VALUE`. -/
inductive GenFile where
  | arf | grf | immediate
  deriving DecidableEq

inductive GenHorizontalStride where
  | stride0 | stride1 | stride2 | stride4
  deriving DecidableEq

inductive GenVerticalStride where
  | stride0 | stride1 | stride2 | stride4 | stride8 | stride16 | stride32 | stride64
  | stride128 | stride256

inductive GenWidth where
  | width1 | width2 | width4 | width8 | width16 | width32
  deriving DecidableEq

structure GenRegister where
  /-- `value.reg`: the virtual register -/
  reg : ℕ := 0
  nr : ℕ := 0
  subnr : ℕ := 0
  physical : Bool := false
  subphysical : Bool := false
  type : GenType
  file : GenFile
  negation : Bool := false
  absolute : Bool := false
  vstride : GenVerticalStride
  width : GenWidth
  hstride : GenHorizontalStride
  quarter : ℕ := 0

def GEN_ARF_NULL : ℕ := 0x00
def GEN_ARF_ACCUMULATOR : ℕ := 0x20
def GEN_ARF_FLAG : ℕ := 0x30
def GEN_ARF_STATE : ℕ := 0x70
def GEN_ARF_TM : ℕ := 0xC0

namespace GenRegister

def hstride_size (reg : GenRegister) : ℕ :=
  match reg.hstride with
  | .stride0 => 0
  | .stride1 => 1
  | .stride2 => 2
  | .stride4 => 4

def vstride_size (reg : GenRegister) : ℕ :=
  match reg.vstride with
  | .stride0 => 0
  | .stride1 => 1
  | .stride2 => 2
  | .stride4 => 4
  | .stride8 => 8
  | .stride16 => 16
  | .stride32 => 32
  | .stride64 => 64
  | .stride128 => 128
  | .stride256 => 256

def width_size (reg : GenRegister) : ℕ :=
  match reg.width with
  | .width1 => 1
  | .width2 => 2
  | .width4 => 4
  | .width8 => 8
  | .width16 => 16
  | .width32 => 32

def isint64 (reg : GenRegister) : Bool :=
  (reg.type = .UL || reg.type = .L) && reg.file = .grf

def is_unpacked_long (reg : GenRegister) : Bool :=
  reg.file = .grf && reg.width = .width4 && (reg.hstride = .stride2 || reg.hstride = .stride4)

def isdf (reg : GenRegister) : Bool := reg.type = .DF && reg.file = .grf

/-- A scalar of a virtual register: `uw1grf`. -/
def uw1grf (reg : ℕ) : GenRegister :=
  { reg := reg, type := .UW, file := .grf, vstride := .stride0, width := .width1,
    hstride := .stride0 }

/-- The accumulator. -/
def acc : GenRegister :=
  { nr := GEN_ARF_ACCUMULATOR, physical := true, subphysical := true, type := .F, file := .arf,
    vstride := .stride8, width := .width8, hstride := .stride1 }

/-- A physical flag register; the constructor scales `subnr` by the type size. -/
def flag (nr subnr : ℕ) : GenRegister :=
  { nr := GEN_ARF_FLAG ||| nr, subnr := subnr * typeSize .UW, physical := true,
    subphysical := true, type := .UW, file := .arf, vstride := .stride0, width := .width1,
    hstride := .stride0 }

/-- `QnPhysical`: a later group of eight channels. -/
def QnPhysical (reg : GenRegister) (quarter : ℕ) : GenRegister :=
  if reg.hstride = .stride0 then reg
  else
    let nextOffset := reg.nr * 32 + reg.subnr + 8 * quarter * reg.hstride_size * typeSize reg.type
    { reg with nr := nextOffset / 32, subnr := nextOffset % 32 }

end GenRegister

/-! ### Instructions -/

/-- The opcodes of `gen_insn_selection.hxx`. -/
inductive SelectionOpcode where
  | LABEL | MOV | BSWAP | LOAD_INT64_IMM | NOT | LZD | RNDZ | RNDE | RNDD | RNDU | FRC
  | F16TO32 | F32TO16 | SEL | SEL_INT64 | AND | OR | XOR | I64AND | I64OR | I64XOR | SHR | SHL
  | RSR | RSL | ASR | SIMD_SHUFFLE | I64SHR | I64SHL | I64ASR | ADD | I64ADD | I64SATADD
  | I64SUB | I64SATSUB | MUL | I64MUL | I64DIV | I64REM | ATOMIC | ATOMICA64 | MACH | CMP
  | I64CMP | SEL_CMP | MAD | LRP | JMPI | EOT | INDIRECT_MOVE | NOP | WAIT | MATH | BARRIER
  | FENCE | UNTYPED_READ | UNTYPED_WRITE | UNTYPED_READA64 | UNTYPED_WRITEA64 | READ64
  | WRITE64 | READ64A64 | WRITE64A64 | BYTE_GATHER | BYTE_SCATTER | BYTE_GATHERA64
  | BYTE_SCATTERA64 | DWORD_GATHER | PACK_BYTE | UNPACK_BYTE | PACK_LONG | UNPACK_LONG | SAMPLE
  | VME | IME | TYPED_WRITE | SPILL_REG | UNSPILL_REG | MUL_HI | I64_MUL_HI | FBH | FBL | CBIT
  | HADD | RHADD | I64HADD | I64RHADD | UPSAMPLE_LONG | CONVI_TO_I64 | CONVI64_TO_I
  | CONVI64_TO_F | CONVF_TO_I64 | I64MADSAT | BRC | BRD | IF | ENDIF | ELSE | READ_ARF | WHILE
  | F64DIV | CALC_TIMESTAMP | STORE_PROFILING | WORKGROUP_OP | SUBGROUP_OP | PRINTF | OBREAD
  | OBWRITE | MBREAD | MBWRITE | BFREV
  deriving DecidableEq

/-- The `GEN_PREDICATE_*` of `gen_defs.hpp` for `align1` code. -/
inductive GenPredicate where
  | NONE | NORMAL | ANYV | ALLV | ANY2H | ALL2H | ANY4H | ALL4H | ANY8H | ALL8H | ANY16H | ALL16H
  deriving DecidableEq

structure GenInstructionState where
  /-- a physical flag, `flag` and `subFlag`, or the virtual one `flagIndex` -/
  physicalFlag : Bool := true
  flag : ℕ := 0
  subFlag : ℕ := 0
  modFlag : Bool := false
  execWidth : ℕ
  noMask : Bool := false
  predicate : GenPredicate := .NONE
  inversePredicate : Bool := false
  saturate : Bool := false
  flagIndex : ℕ := 0

structure SelectionInstruction where
  opcode : SelectionOpcode
  state : GenInstructionState
  dst : List GenRegister := []
  src : List GenRegister := []

namespace SelectionInstruction

/-- Does it read memory? -/
def isRead (insn : SelectionInstruction) : Bool :=
  insn.opcode = .UNTYPED_READ || insn.opcode = .UNTYPED_READA64 || insn.opcode = .READ64 ||
  insn.opcode = .READ64A64 || insn.opcode = .ATOMIC || insn.opcode = .ATOMICA64 ||
  insn.opcode = .BYTE_GATHER || insn.opcode = .BYTE_GATHERA64 || insn.opcode = .SAMPLE ||
  insn.opcode = .VME || insn.opcode = .IME || insn.opcode = .DWORD_GATHER ||
  insn.opcode = .OBREAD || insn.opcode = .MBREAD

/-- Does it modify the accumulator? -/
def modAcc (insn : SelectionInstruction) : Bool :=
  insn.opcode = .I64SUB || insn.opcode = .I64ADD || insn.opcode = .MUL_HI ||
  insn.opcode = .HADD || insn.opcode = .RHADD || insn.opcode = .I64MUL ||
  insn.opcode = .I64_MUL_HI || insn.opcode = .I64MADSAT || insn.opcode = .I64DIV ||
  insn.opcode = .I64REM || insn.opcode = .MACH

/-- Does it write memory? -/
def isWrite (insn : SelectionInstruction) : Bool :=
  insn.opcode = .UNTYPED_WRITE || insn.opcode = .UNTYPED_WRITEA64 || insn.opcode = .WRITE64 ||
  insn.opcode = .WRITE64A64 || insn.opcode = .ATOMIC || insn.opcode = .ATOMICA64 ||
  insn.opcode = .BYTE_SCATTER || insn.opcode = .BYTE_SCATTERA64 || insn.opcode = .TYPED_WRITE ||
  insn.opcode = .OBWRITE || insn.opcode = .MBWRITE

def isBranch (insn : SelectionInstruction) : Bool := insn.opcode = .JMPI

def isLabel (insn : SelectionInstruction) : Bool := insn.opcode = .LABEL

end SelectionInstruction

end Backend
