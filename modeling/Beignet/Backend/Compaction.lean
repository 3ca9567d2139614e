/-
Compact instructions: `gen_insn_compact.cpp`, and the encoding of the same instructions
without compaction in `gen_encoder.cpp`, `gen7_encoder.cpp` and `gen8_encoder.cpp`.

Most instructions have a form of 64 bits.  The control bits, the types, the subregisters
and the regions of the sources are looked up in tables of 32 patterns each; an instruction
is compact if all of them are found.  `decompactInstruction` goes the other way.

Words are bit vectors, and an assignment to a bit field keeps the low bits of the value.
A field that several views of a union have in the same place has one name here.  `none` is
an assertion that stops the encoder, or, of the functions that compact, a refusal.
-/
import Beignet.Lib.BitFields

namespace Compact

open BitFields

/-! ### Registers and states -/

structure GenRegister where
  value : BitVec 64
  nr : BitVec 8
  subnr : BitVec 8
  type : BitVec 4
  file : BitVec 2
  negation : BitVec 1
  absolute : BitVec 1
  vstride : BitVec 4
  width : BitVec 3
  hstride : BitVec 2
  address_mode : BitVec 1
  a0_subnr : BitVec 4
  addr_imm : BitVec 10

/-- `value.ud`, which is `value.d` as well. -/
def GenRegister.ud (r : GenRegister) : BitVec 32 := r.value.setWidth 32

structure GenInstructionState where
  flag : BitVec 1
  subFlag : BitVec 1
  execWidth : BitVec 5
  quarterControl : BitVec 1
  nibControl : BitVec 1
  accWrEnable : BitVec 1
  noMask : BitVec 1
  predicate : BitVec 4
  inversePredicate : BitVec 1
  saturate : BitVec 1

abbrev u32 {k : ℕ} (x : BitVec k) : BitVec 32 := x.setWidth 32

def GEN_ARCHITECTURE_REGISTER_FILE : BitVec 2 := 0
def GEN_GENERAL_REGISTER_FILE : BitVec 2 := 1
def GEN_IMMEDIATE_VALUE : BitVec 2 := 3

def GEN_TYPE_UW : BitVec 4 := 2
def GEN_TYPE_W : BitVec 4 := 3
def GEN_TYPE_UB : BitVec 4 := 4
def GEN_TYPE_B : BitVec 4 := 5
def GEN_TYPE_DF : BitVec 4 := 6
def GEN_TYPE_F : BitVec 4 := 7
def GEN_TYPE_UL : BitVec 4 := 8
def GEN_TYPE_L : BitVec 4 := 9
def GEN_TYPE_HF : BitVec 4 := 10
def GEN_TYPE_DF_IMM : BitVec 4 := 10

def GEN_OPCODE_MOV : BitVec 7 := 1
def GEN_OPCODE_NOT : BitVec 7 := 4
def GEN_OPCODE_AND : BitVec 7 := 5
def GEN_OPCODE_OR : BitVec 7 := 6
def GEN_OPCODE_XOR : BitVec 7 := 7
def GEN_OPCODE_CMP : BitVec 7 := 16
def GEN_OPCODE_JMPI : BitVec 7 := 32
def GEN_OPCODE_IF : BitVec 7 := 34
def GEN_OPCODE_ENDIF : BitVec 7 := 37
def GEN_OPCODE_MAD : BitVec 7 := 91
def GEN_OPCODE_LRP : BitVec 7 := 92

/-- `GEN_WIDTH_1` and so on, of an execution width. -/
def executionSize (execWidth : BitVec 5) : Option (BitVec 32) :=
  if execWidth = 8 then some 3
  else if execWidth = 16 then some 4
  else if execWidth = 4 then some 2
  else if execWidth = 1 then some 0
  else none

/-! ### Native instructions -/

/-- The four words of an instruction. -/
structure Native where
  header : BitVec 32
  bits1 : BitVec 32
  bits2 : BitVec 32
  bits3 : BitVec 32
  deriving DecidableEq

-- The fields that both generations have in the same places.

namespace Header

def opcode : Field := ⟨0, 7⟩
def pad : Field := ⟨7, 1⟩
def access_mode : Field := ⟨8, 1⟩
def quarter_control : Field := ⟨12, 2⟩
def thread_control : Field := ⟨14, 2⟩
def predicate_control : Field := ⟨16, 4⟩
def predicate_inverse : Field := ⟨20, 1⟩
def execution_size : Field := ⟨21, 3⟩
def destreg_or_condmod : Field := ⟨24, 4⟩
def acc_wr_control : Field := ⟨28, 1⟩
def cmpt_control : Field := ⟨29, 1⟩
def debug_control : Field := ⟨30, 1⟩
def saturate : Field := ⟨31, 1⟩

end Header

-- A source in direct mode: `bits2.da1` of the first one, `bits3.da1` of the second.

namespace Src

def subreg_nr : Field := ⟨0, 5⟩
def reg_nr : Field := ⟨5, 8⟩
def abs : Field := ⟨13, 1⟩
def negate : Field := ⟨14, 1⟩
def address_mode : Field := ⟨15, 1⟩
def horiz_stride : Field := ⟨16, 2⟩
def width : Field := ⟨18, 3⟩
def vert_stride : Field := ⟨21, 4⟩
/-- `da16.src0_subreg_nr` -/
def subreg_nr16 : Field := ⟨4, 1⟩

end Src

namespace Gen7

def mask_control : Field := ⟨9, 1⟩
def dependency_control : Field := ⟨10, 2⟩
def dest_reg_file : Field := ⟨0, 2⟩
def dest_reg_type : Field := ⟨2, 3⟩
def src0_reg_file : Field := ⟨5, 2⟩
def src0_reg_type : Field := ⟨7, 3⟩
def src1_reg_file : Field := ⟨10, 2⟩
def src1_reg_type : Field := ⟨12, 3⟩
def nib_ctrl : Field := ⟨15, 1⟩
def dest_subreg_nr : Field := ⟨16, 5⟩
def dest_reg_nr : Field := ⟨21, 8⟩
def dest_horiz_stride : Field := ⟨29, 2⟩
def dest_address_mode : Field := ⟨31, 1⟩
def flag_sub_reg_nr : Field := ⟨25, 1⟩
def flag_reg_nr : Field := ⟨26, 1⟩
def da3src_flag_sub_reg_nr : Field := ⟨1, 1⟩
def da3src_flag_reg_nr : Field := ⟨2, 1⟩
def src0_indirect_offset : Field := ⟨0, 10⟩
def src0_indirect_subreg_nr : Field := ⟨10, 3⟩

end Gen7

namespace Gen8

def dependency_control : Field := ⟨9, 2⟩
def nib_ctrl : Field := ⟨11, 1⟩
def flag_sub_reg_nr : Field := ⟨0, 1⟩
def flag_reg_nr : Field := ⟨1, 1⟩
def mask_control : Field := ⟨2, 1⟩
def dest_reg_file : Field := ⟨3, 2⟩
def dest_reg_type : Field := ⟨5, 4⟩
def src0_reg_file : Field := ⟨9, 2⟩
def src0_reg_type : Field := ⟨11, 4⟩
def dest_subreg_nr : Field := ⟨16, 5⟩
def dest_reg_nr : Field := ⟨21, 8⟩
def dest_horiz_stride : Field := ⟨29, 2⟩
def dest_address_mode : Field := ⟨31, 1⟩
def src1_reg_file : Field := ⟨25, 2⟩
def src1_reg_type : Field := ⟨27, 4⟩
def src0_indirect_offset : Field := ⟨0, 9⟩
def src0_indirect_subreg_nr : Field := ⟨9, 4⟩
def src0_indirect_offset_9 : Field := ⟨31, 1⟩

-- The views `da3src`.

namespace Da3src

def src1_type : Field := ⟨3, 1⟩
def src2_type : Field := ⟨4, 1⟩
def src0_abs : Field := ⟨5, 1⟩
def src0_negate : Field := ⟨6, 1⟩
def src1_abs : Field := ⟨7, 1⟩
def src1_negate : Field := ⟨8, 1⟩
def src2_abs : Field := ⟨9, 1⟩
def src2_negate : Field := ⟨10, 1⟩
def src_type : Field := ⟨11, 3⟩
def dest_type : Field := ⟨14, 3⟩
def dest_writemask : Field := ⟨17, 4⟩
def dest_subreg_nr : Field := ⟨21, 3⟩
def dest_reg_nr : Field := ⟨24, 8⟩
def src0_rep_ctrl : Field := ⟨0, 1⟩
def src0_swizzle : Field := ⟨1, 8⟩
def src0_subreg_nr : Field := ⟨9, 3⟩
def src0_reg_nr : Field := ⟨12, 8⟩
def src1_rep_ctrl : Field := ⟨21, 1⟩
def src1_swizzle : Field := ⟨22, 8⟩
def src1_subreg_nr_low : Field := ⟨30, 2⟩
def src1_subreg_nr_high : Field := ⟨0, 1⟩
def src1_reg_nr : Field := ⟨1, 8⟩
def src2_rep_ctrl : Field := ⟨10, 1⟩
def src2_swizzle : Field := ⟨11, 8⟩
def src2_subreg_nr : Field := ⟨19, 3⟩
def src2_reg_nr : Field := ⟨22, 8⟩

end Da3src

end Gen8

/-- A new instruction. -/
def next (opcode : BitVec 7) : Native where
  header := set Header.opcode (u32 opcode) 0
  bits1 := 0
  bits2 := 0
  bits3 := 0

/-- The opcodes of three sources. -/
def isSrc3 (opcode : BitVec 32) : Prop :=
  opcode = u32 GEN_OPCODE_MAD ∨ opcode = u32 GEN_OPCODE_LRP

instance (opcode : BitVec 32) : Decidable (isSrc3 opcode) :=
  inferInstanceAs (Decidable (_ ∨ _))

/-- The predicate of an instruction, in both generations. -/
def setPredicate (curr : GenInstructionState) (header : BitVec 32) : BitVec 32 :=
  if curr.predicate ≠ 0 then
    set Header.predicate_inverse (u32 curr.inversePredicate)
      (set Header.predicate_control (u32 curr.predicate) header)
  else header

/-- The stride that is encoded for a destination of stride 0. -/
def dstStride (dest : GenRegister) : BitVec 2 :=
  if dest.hstride = 0 then
    if dest.type = GEN_TYPE_UB ∨ dest.type = GEN_TYPE_B then 3
    else if dest.type = GEN_TYPE_UW ∨ dest.type = GEN_TYPE_W then 2
    else 1
  else dest.hstride

/-- The register and the region of a source in direct mode; `header` is that of the
instruction. -/
def setRegion (header word : BitVec 32) (reg : GenRegister) : BitVec 32 :=
  let word :=
    if get Header.access_mode header = 0 then
      set Src.reg_nr (u32 reg.nr) (set Src.subreg_nr (u32 reg.subnr) word)
    else set Src.reg_nr (u32 reg.nr) (set Src.subreg_nr16 (u32 reg.subnr / 16) word)
  if reg.width = 0 ∧ get Header.execution_size header = 0 then
    set Src.vert_stride 0 (set Src.width 0 (set Src.horiz_stride 0 word))
  else
    set Src.vert_stride (u32 reg.vstride)
      (set Src.width (u32 reg.width) (set Src.horiz_stride (u32 reg.hstride) word))

namespace Gen7

def setHeader (curr : GenInstructionState) (insn : Native) : Option Native :=
  (executionSize curr.execWidth).map fun size =>
    let header := set Header.execution_size size insn.header
    let header := set Header.acc_wr_control (u32 curr.accWrEnable) header
    let header := set Header.quarter_control (u32 curr.quarterControl) header
    let header := set mask_control (u32 curr.noMask) header
    let header := set Header.saturate (u32 curr.saturate) (setPredicate curr header)
    let bits1 := set nib_ctrl (u32 curr.nibControl) insn.bits1
    if isSrc3 (get Header.opcode insn.header) then
      { insn with
        header := header
        bits1 := set da3src_flag_sub_reg_nr (u32 curr.subFlag)
          (set da3src_flag_reg_nr (u32 curr.flag) bits1) }
    else
      { insn with
        header := header
        bits1 := bits1
        bits2 := set flag_sub_reg_nr (u32 curr.subFlag)
          (set flag_reg_nr (u32 curr.flag) insn.bits2) }

def setDst (insn : Native) (dest : GenRegister) : Option Native :=
  if dest.file ≠ GEN_ARCHITECTURE_REGISTER_FILE ∧ ¬ dest.nr < 128 then none
  else
    let bits1 := set dest_reg_file (u32 dest.file) insn.bits1
    let bits1 := set dest_reg_type (u32 dest.type) bits1
    let bits1 := set dest_address_mode (u32 dest.address_mode) bits1
    let bits1 := set dest_reg_nr (u32 dest.nr) bits1
    let bits1 := set dest_subreg_nr (u32 dest.subnr) bits1
    some { insn with bits1 := set dest_horiz_stride (u32 (dstStride dest)) bits1 }

def setSrc0 (insn : Native) (reg : GenRegister) : Option Native :=
  if reg.file ≠ GEN_ARCHITECTURE_REGISTER_FILE ∧ ¬ reg.nr < 128 then none
  else if reg.address_mode = 0 then
    let bits1 := set src0_reg_type (u32 reg.type) (set src0_reg_file (u32 reg.file) insn.bits1)
    let bits2 := set Src.address_mode (u32 reg.address_mode)
      (set Src.negate (u32 reg.negation) (set Src.abs (u32 reg.absolute) insn.bits2))
    if reg.file = GEN_IMMEDIATE_VALUE then
      some { insn with
        bits1 := set src1_reg_type (u32 reg.type) (set src1_reg_file 0 bits1)
        bits2 := bits2
        bits3 := reg.ud }
    else some { insn with bits1 := bits1, bits2 := setRegion insn.header bits2 reg }
  else
    let bits2 := set src0_indirect_subreg_nr (u32 reg.a0_subnr) insn.bits2
    let bits2 := set src0_indirect_offset (u32 reg.addr_imm) bits2
    let bits2 := set Src.negate (u32 reg.negation) (set Src.abs (u32 reg.absolute) bits2)
    let bits2 := set Src.horiz_stride (u32 reg.hstride)
      (set Src.address_mode (u32 reg.address_mode) bits2)
    some { insn with
      bits1 := set src0_reg_type (u32 reg.type)
        (set src0_reg_file (u32 GEN_GENERAL_REGISTER_FILE) insn.bits1)
      bits2 := set Src.vert_stride (u32 reg.vstride) (set Src.width (u32 reg.width) bits2) }

def setSrc1 (insn : Native) (reg : GenRegister) : Option Native :=
  if ¬ reg.nr < 128 then none
  else
    let bits1 := set src1_reg_type (u32 reg.type) (set src1_reg_file (u32 reg.file) insn.bits1)
    let bits3 := set Src.negate (u32 reg.negation) (set Src.abs (u32 reg.absolute) insn.bits3)
    if get src0_reg_file bits1 = u32 GEN_IMMEDIATE_VALUE then none
    else if reg.file = GEN_IMMEDIATE_VALUE then
      some { insn with bits1 := bits1, bits3 := reg.ud }
    else if reg.address_mode ≠ 0 then none
    else some { insn with bits1 := bits1, bits3 := setRegion insn.header bits3 reg }

end Gen7

namespace Gen8

def setHeader (curr : GenInstructionState) (insn : Native) : Option Native :=
  (executionSize curr.execWidth).map fun size =>
    let header := set Header.execution_size size insn.header
    let header := set Header.acc_wr_control (u32 curr.accWrEnable) header
    let header := set Header.quarter_control (u32 curr.quarterControl) header
    let header := set nib_ctrl (u32 curr.nibControl) header
    let bits1 := set mask_control (u32 curr.noMask) insn.bits1
    { insn with
      header := set Header.saturate (u32 curr.saturate) (setPredicate curr header)
      bits1 := set flag_sub_reg_nr (u32 curr.subFlag) (set flag_reg_nr (u32 curr.flag) bits1) }

def setDst (insn : Native) (dest : GenRegister) : Option Native :=
  if dest.file ≠ GEN_ARCHITECTURE_REGISTER_FILE ∧ ¬ dest.nr < 128 then none
  else
    let bits1 := set dest_reg_file (u32 dest.file) insn.bits1
    let bits1 := set dest_reg_type (u32 dest.type) bits1
    let bits1 := set dest_address_mode (u32 dest.address_mode) bits1
    let bits1 := set dest_reg_nr (u32 dest.nr) bits1
    let bits1 := set dest_subreg_nr (u32 dest.subnr) bits1
    some { insn with bits1 := set dest_horiz_stride (u32 (dstStride dest)) bits1 }

def isLong (type : BitVec 4) : Prop :=
  type = GEN_TYPE_L ∨ type = GEN_TYPE_UL ∨ type = GEN_TYPE_DF_IMM

instance (type : BitVec 4) : Decidable (isLong type) :=
  inferInstanceAs (Decidable (_ ∨ _ ∨ _))

def setSrc0 (insn : Native) (reg : GenRegister) : Option Native :=
  if reg.file ≠ GEN_ARCHITECTURE_REGISTER_FILE ∧ ¬ reg.nr < 128 then none
  else if reg.address_mode = 0 then
    let bits1 := set src0_reg_type (u32 reg.type) (set src0_reg_file (u32 reg.file) insn.bits1)
    let bits2 := set Src.address_mode (u32 reg.address_mode)
      (set Src.negate (u32 reg.negation) (set Src.abs (u32 reg.absolute) insn.bits2))
    if reg.file = GEN_IMMEDIATE_VALUE then
      if isLong reg.type then
        some { insn with
          bits1 := bits1
          bits2 := reg.value.setWidth 32
          bits3 := (reg.value >>> 32).setWidth 32 }
      else
        some { insn with
          bits1 := bits1
          bits2 := set src1_reg_type (u32 reg.type) (set src1_reg_file 0 bits2)
          bits3 := reg.ud }
    else some { insn with bits1 := bits1, bits2 := setRegion insn.header bits2 reg }
  else
    let bits2 := set src0_indirect_subreg_nr (u32 reg.a0_subnr) insn.bits2
    let bits2 := set src0_indirect_offset (reg.addr_imm.signExtend 32 &&& 0x1ff) bits2
    let bits2 := set Src.negate (u32 reg.negation) (set Src.abs (u32 reg.absolute) bits2)
    let bits2 := set Src.horiz_stride (u32 reg.hstride)
      (set Src.address_mode (u32 reg.address_mode) bits2)
    let bits2 := set Src.vert_stride (u32 reg.vstride) (set Src.width (u32 reg.width) bits2)
    some { insn with
      bits1 := set src0_reg_type (u32 reg.type)
        (set src0_reg_file (u32 GEN_GENERAL_REGISTER_FILE) insn.bits1)
      bits2 := set src0_indirect_offset_9 ((reg.addr_imm.signExtend 32 &&& 0x02) >>> 9) bits2 }

def setSrc1 (insn : Native) (reg : GenRegister) : Option Native :=
  if ¬ reg.nr < 128 then none
  else
    let bits2 := set src1_reg_type (u32 reg.type) (set src1_reg_file (u32 reg.file) insn.bits2)
    let bits3 := set Src.negate (u32 reg.negation) (set Src.abs (u32 reg.absolute) insn.bits3)
    if get src0_reg_file insn.bits1 = u32 GEN_IMMEDIATE_VALUE then none
    else if reg.file = GEN_IMMEDIATE_VALUE then
      if isLong reg.type ∧ 0xFFFFFFFF < reg.value then none
      else some { insn with bits2 := bits2, bits3 := reg.ud }
    else if reg.address_mode ≠ 0 then none
    else some { insn with bits2 := bits2, bits3 := setRegion insn.header bits3 reg }

def NO_SWIZZLE : BitVec 32 := 0 ||| 1 <<< 2 ||| 2 <<< 4 ||| 3 <<< 6

/-- A register of three-source instructions. -/
def src3Register (r : GenRegister) : Prop :=
  r.file = GEN_GENERAL_REGISTER_FILE ∧ r.address_mode = 0 ∧ r.nr < 128

instance (r : GenRegister) : Decidable (src3Register r) :=
  inferInstanceAs (Decidable (_ ∧ _ ∧ _))

/-- The replication of a source. -/
def repCtrl (r : GenRegister) : BitVec 32 := if r.vstride = 0 then 1 else 0

/-- What `alu3` emits when the instruction is not compact. -/
def alu3 (curr : GenInstructionState) (opcode : BitVec 7) (dest src0 src1 src2 : GenRegister) :
    Option Native :=
  if curr.execWidth ≠ 1 ∧ curr.execWidth ≠ 8 ∧ curr.execWidth ≠ 16 then none
  else if ¬ (src3Register dest ∧ src3Register src0 ∧ src3Register src1 ∧
      src3Register src2) then none
  else if ¬ ((src0.type = GEN_TYPE_HF ∨ src0.type = GEN_TYPE_F ∨ src0.type = GEN_TYPE_DF) ∧
      src0.type = dest.type ∧ src0.type = src1.type ∧ src0.type = src2.type) then none
  else
    let dataType : BitVec 32 :=
      if src0.type = GEN_TYPE_DF then 3 else if src0.type = GEN_TYPE_HF then 4 else 0
    let insn := next opcode
    let bits1 := set Da3src.dest_reg_nr (u32 dest.nr) insn.bits1
    let bits1 := set Da3src.dest_subreg_nr (u32 dest.subnr / 4) bits1
    let bits1 := set Da3src.dest_writemask 0xf bits1
    let bits1 := set Da3src.dest_type dataType bits1
    let bits1 := set Da3src.src_type dataType bits1
    let bits1 := set Da3src.src1_type (if src1.type = GEN_TYPE_HF then 1 else 0) bits1
    let bits1 := set Da3src.src2_type (if src2.type = GEN_TYPE_HF then 1 else 0) bits1
    (setHeader curr { insn with bits1 := bits1 }).bind fun insn =>
      (executionSize curr.execWidth).map fun size =>
        let header := set Header.execution_size size (set Header.access_mode 1 insn.header)
        let bits2 := set Da3src.src0_swizzle NO_SWIZZLE insn.bits2
        let bits2 := set Da3src.src0_subreg_nr (u32 src0.subnr / 4) bits2
        let bits2 := set Da3src.src0_reg_nr (u32 src0.nr) bits2
        let bits1 := set Da3src.src0_abs (u32 src0.absolute) insn.bits1
        let bits1 := set Da3src.src0_negate (u32 src0.negation) bits1
        let bits2 := set Da3src.src0_rep_ctrl (repCtrl src0) bits2
        let bits2 := set Da3src.src1_swizzle NO_SWIZZLE bits2
        let bits2 := set Da3src.src1_subreg_nr_low ((u32 src1.subnr / 4) &&& 0x3) bits2
        let bits3 := set Da3src.src1_subreg_nr_high ((u32 src1.subnr / 4) >>> 2) insn.bits3
        let bits2 := set Da3src.src1_rep_ctrl (repCtrl src1) bits2
        let bits3 := set Da3src.src1_reg_nr (u32 src1.nr) bits3
        let bits1 := set Da3src.src1_abs (u32 src1.absolute) bits1
        let bits1 := set Da3src.src1_negate (u32 src1.negation) bits1
        let bits3 := set Da3src.src2_swizzle NO_SWIZZLE bits3
        let bits3 := set Da3src.src2_subreg_nr (u32 src2.subnr / 4) bits3
        let bits3 := set Da3src.src2_rep_ctrl (repCtrl src2) bits3
        let bits3 := set Da3src.src2_reg_nr (u32 src2.nr) bits3
        let bits1 := set Da3src.src2_abs (u32 src2.absolute) bits1
        let bits1 := set Da3src.src2_negate (u32 src2.negation) bits1
        { header := header, bits1 := bits1, bits2 := bits2, bits3 := bits3 }

end Gen8

inductive Version
  | gen7 | gen8
  deriving DecidableEq

namespace Version

def setHeader : Version → GenInstructionState → Native → Option Native
  | gen7 => Gen7.setHeader
  | gen8 => Gen8.setHeader

def setDst : Version → Native → GenRegister → Option Native
  | gen7 => Gen7.setDst
  | gen8 => Gen8.setDst

def setSrc0 : Version → Native → GenRegister → Option Native
  | gen7 => Gen7.setSrc0
  | gen8 => Gen8.setSrc0

def setSrc1 : Version → Native → GenRegister → Option Native
  | gen7 => Gen7.setSrc1
  | gen8 => Gen8.setSrc1

end Version

/-- The condition of an instruction, which only some opcodes may have. -/
def setCondition (allowed : List (BitVec 7)) (opcode : BitVec 7) (condition : BitVec 32)
    (insn : Native) : Option Native :=
  if condition ≠ 0 then
    if opcode ∈ allowed then
      some { insn with header := set Header.destreg_or_condmod condition insn.header }
    else none
  else some insn

/-- What `alu1` emits when the instruction is neither split nor compact. -/
def alu1 (v : Version) (curr : GenInstructionState) (opcode : BitVec 7) (dst src : GenRegister)
    (condition : BitVec 32) : Option Native :=
  (setCondition [GEN_OPCODE_MOV, GEN_OPCODE_NOT] opcode condition (next opcode)).bind fun insn =>
    (v.setHeader curr insn).bind fun insn =>
      (v.setDst insn dst).bind fun insn => v.setSrc0 insn src

/-- What `alu2` emits when the instruction is neither split nor compact. -/
def alu2 (v : Version) (curr : GenInstructionState) (opcode : BitVec 7)
    (dst src0 src1 : GenRegister) (condition : BitVec 32) : Option Native :=
  (setCondition [GEN_OPCODE_OR, GEN_OPCODE_XOR, GEN_OPCODE_AND] opcode condition
      (next opcode)).bind fun insn =>
    (v.setHeader curr insn).bind fun insn =>
      (v.setDst insn dst).bind fun insn =>
        (v.setSrc0 insn src0).bind fun insn => v.setSrc1 insn src1

def isNull (r : GenRegister) : Prop :=
  r.file = GEN_ARCHITECTURE_REGISTER_FILE ∧ r.nr = 0

instance (r : GenRegister) : Decidable (isNull r) := inferInstanceAs (Decidable (_ ∧ _))

/-- What `CMP` emits when the instruction is neither split nor compact. -/
def cmp (v : Version) (curr : GenInstructionState) (dst src0 src1 : GenRegister)
    (conditional : BitVec 32) : Option Native :=
  (v.setHeader curr (next GEN_OPCODE_CMP)).bind fun insn =>
    let header := set Header.destreg_or_condmod conditional insn.header
    let header := if isNull dst then set Header.thread_control 2 header else header
    (v.setDst { insn with header := header } dst).bind fun insn =>
      (v.setSrc0 insn src0).bind fun insn => v.setSrc1 insn src1

/-! ### Tables -/

structure Entry where
  bit_pattern : BitVec 32
  index : BitVec 32
  deriving DecidableEq

def control_table : List Entry :=
  [⟨0b0000000000000000010, 0⟩, ⟨0b0000100000000000000, 1⟩,
    ⟨0b0000100000000000001, 2⟩, ⟨0b0000100000000000010, 3⟩,
    ⟨0b0000100000000000011, 4⟩, ⟨0b0000100000000000100, 5⟩,
    ⟨0b0000100000000000101, 6⟩, ⟨0b0000100000000000111, 7⟩,
    ⟨0b0000100000000001000, 8⟩, ⟨0b0000100000000001001, 9⟩,
    ⟨0b0000100000000001101, 10⟩, ⟨0b0000110000000000000, 11⟩,
    ⟨0b0000110000000000001, 12⟩, ⟨0b0000110000000000010, 13⟩,
    ⟨0b0000110000000000011, 14⟩, ⟨0b0000110000000000100, 15⟩,
    ⟨0b0000110000000000101, 16⟩, ⟨0b0000110000000000111, 17⟩,
    ⟨0b0000110000000001001, 18⟩, ⟨0b0000110000000001101, 19⟩,
    ⟨0b0000110000000010000, 20⟩, ⟨0b0000110000100000000, 21⟩,
    ⟨0b0001000000000000000, 22⟩, ⟨0b0001000000000000010, 23⟩,
    ⟨0b0001000000000000100, 24⟩, ⟨0b0001000000100000000, 25⟩,
    ⟨0b0010110000000000000, 26⟩, ⟨0b0010110000000010000, 27⟩,
    ⟨0b0011000000000000000, 28⟩, ⟨0b0011000000100000000, 29⟩,
    ⟨0b0101000000000000000, 30⟩, ⟨0b0101000000100000000, 31⟩]

def src3_control_table : List Entry :=
  [⟨0b100000000110000000000001, 0⟩, ⟨0b000000000110000000000001, 1⟩,
    ⟨0b000000001000000000000001, 2⟩, ⟨0b000000001000000000100001, 3⟩]

def data_type_table : List Entry :=
  [⟨0b000000001000001100, 20⟩, ⟨0b001000000000000001, 0⟩,
    ⟨0b001000000000100000, 1⟩, ⟨0b001000000000100001, 2⟩,
    ⟨0b001000000000111101, 21⟩, ⟨0b001000000001100001, 3⟩,
    ⟨0b001000000010100101, 22⟩, ⟨0b001000000010111101, 4⟩,
    ⟨0b001000001011111101, 5⟩, ⟨0b001000001110100001, 6⟩,
    ⟨0b001000001110100101, 7⟩, ⟨0b001000001110111101, 8⟩,
    ⟨0b001000010000100000, 23⟩, ⟨0b001000010000100001, 9⟩,
    ⟨0b001000110000100000, 10⟩, ⟨0b001000110000100001, 11⟩,
    ⟨0b001001010010100100, 24⟩, ⟨0b001001010010100101, 12⟩,
    ⟨0b001001110010000100, 25⟩, ⟨0b001001110010100100, 13⟩,
    ⟨0b001001110010100101, 14⟩, ⟨0b001010010100001001, 26⟩,
    ⟨0b001010010100101000, 30⟩, ⟨0b001010110100101000, 31⟩,
    ⟨0b001011110110101100, 29⟩, ⟨0b001101111110111101, 27⟩,
    ⟨0b001111001110111101, 15⟩, ⟨0b001111011110011101, 16⟩,
    ⟨0b001111011110111100, 17⟩, ⟨0b001111011110111101, 18⟩,
    ⟨0b001111111110111100, 19⟩, ⟨0b001111111110111101, 28⟩]

def gen8_data_type_table : List Entry :=
  [⟨0b001000000000000000001, 0⟩, ⟨0b001000000000001000000, 1⟩,
    ⟨0b001000000000001000001, 2⟩, ⟨0b001000000000011000001, 3⟩,
    ⟨0b001000000000101011101, 4⟩, ⟨0b001000000010111011101, 5⟩,
    ⟨0b001000000011101000001, 6⟩, ⟨0b001000000011101000101, 7⟩,
    ⟨0b001000000011101011101, 8⟩, ⟨0b001000001000001000001, 9⟩,
    ⟨0b001000011000001000000, 10⟩, ⟨0b001000011000001000001, 11⟩,
    ⟨0b001000101000101000101, 12⟩, ⟨0b001000111000101000100, 13⟩,
    ⟨0b001000111000101000101, 14⟩, ⟨0b001011100011101011101, 15⟩,
    ⟨0b001011101011100011101, 16⟩, ⟨0b001011101011101011100, 17⟩,
    ⟨0b001011101011101011101, 18⟩, ⟨0b001011111011101011100, 19⟩,
    ⟨0b000000000010000001100, 20⟩, ⟨0b001000000000001011101, 21⟩,
    ⟨0b001000000000101000101, 22⟩, ⟨0b001000001000001000000, 23⟩,
    ⟨0b001000101000101000100, 24⟩, ⟨0b001000111000100000100, 25⟩,
    ⟨0b001001001001000001001, 26⟩, ⟨0b001010111011101011101, 27⟩,
    ⟨0b001011111011101011101, 28⟩, ⟨0b001001111001101001100, 29⟩,
    ⟨0b001001001001001001000, 30⟩, ⟨0b001001011001001001000, 31⟩]

def data_type_decompact : List Entry :=
  [⟨0b001000000000000001, 0⟩, ⟨0b001000000000100000, 1⟩,
    ⟨0b001000000000100001, 2⟩, ⟨0b001000000001100001, 3⟩,
    ⟨0b001000000010111101, 4⟩, ⟨0b001000001011111101, 5⟩,
    ⟨0b001000001110100001, 6⟩, ⟨0b001000001110100101, 7⟩,
    ⟨0b001000001110111101, 8⟩, ⟨0b001000010000100001, 9⟩,
    ⟨0b001000110000100000, 10⟩, ⟨0b001000110000100001, 11⟩,
    ⟨0b001001010010100101, 12⟩, ⟨0b001001110010100100, 13⟩,
    ⟨0b001001110010100101, 14⟩, ⟨0b001111001110111101, 15⟩,
    ⟨0b001111011110011101, 16⟩, ⟨0b001111011110111100, 17⟩,
    ⟨0b001111011110111101, 18⟩, ⟨0b001111111110111100, 19⟩,
    ⟨0b000000001000001100, 20⟩, ⟨0b001000000000111101, 21⟩,
    ⟨0b001000000010100101, 22⟩, ⟨0b001000010000100000, 23⟩,
    ⟨0b001001010010100100, 24⟩, ⟨0b001001110010000100, 25⟩,
    ⟨0b001010010100001001, 26⟩, ⟨0b001101111110111101, 27⟩,
    ⟨0b001111111110111101, 28⟩, ⟨0b001011110110101100, 29⟩,
    ⟨0b001010010100101000, 30⟩, ⟨0b001010110100101000, 31⟩]

def subreg_table : List Entry :=
  [⟨0b000000000000000, 0⟩, ⟨0b000000000000001, 1⟩, ⟨0b000000000001000, 2⟩,
    ⟨0b000000000001111, 3⟩, ⟨0b000000000010000, 4⟩, ⟨0b000000010000000, 5⟩,
    ⟨0b000000100000000, 6⟩, ⟨0b000000110000000, 7⟩, ⟨0b000001000000000, 8⟩,
    ⟨0b000001000010000, 9⟩, ⟨0b000001010000000, 10⟩, ⟨0b001000000000000, 11⟩,
    ⟨0b001000000000001, 12⟩, ⟨0b001000010000001, 13⟩, ⟨0b001000010000010, 14⟩,
    ⟨0b001000010000011, 15⟩, ⟨0b001000010000100, 16⟩, ⟨0b001000010000111, 17⟩,
    ⟨0b001000010001000, 18⟩, ⟨0b001000010001110, 19⟩, ⟨0b001000010001111, 20⟩,
    ⟨0b001000110000000, 21⟩, ⟨0b001000111101000, 22⟩, ⟨0b010000000000000, 23⟩,
    ⟨0b010000110000000, 24⟩, ⟨0b011000000000000, 25⟩, ⟨0b011110010000111, 26⟩,
    ⟨0b100000000000000, 27⟩, ⟨0b101000000000000, 28⟩, ⟨0b110000000000000, 29⟩,
    ⟨0b111000000000000, 30⟩, ⟨0b111000000011100, 31⟩]

def srcreg_table : List Entry :=
  [⟨0b000000000000, 0⟩, ⟨0b000000000010, 1⟩, ⟨0b000000010000, 2⟩,
    ⟨0b000000010010, 3⟩, ⟨0b000000011000, 4⟩, ⟨0b000000100000, 5⟩,
    ⟨0b000000101000, 6⟩, ⟨0b000001001000, 7⟩, ⟨0b000001010000, 8⟩,
    ⟨0b000001110000, 9⟩, ⟨0b000001111000, 10⟩, ⟨0b001100000000, 11⟩,
    ⟨0b001100000010, 12⟩, ⟨0b001100001000, 13⟩, ⟨0b001100010000, 14⟩,
    ⟨0b001100010010, 15⟩, ⟨0b001100100000, 16⟩, ⟨0b001100101000, 17⟩,
    ⟨0b001100111000, 18⟩, ⟨0b001101000000, 19⟩, ⟨0b001101000010, 20⟩,
    ⟨0b001101001000, 21⟩, ⟨0b001101010000, 22⟩, ⟨0b001101100000, 23⟩,
    ⟨0b001101101000, 24⟩, ⟨0b001101110000, 25⟩, ⟨0b001101110001, 26⟩,
    ⟨0b001101111000, 27⟩, ⟨0b010001101000, 28⟩, ⟨0b010001101001, 29⟩,
    ⟨0b010001101010, 30⟩, ⟨0b010110001000, 31⟩]

/-- The search of the C library, between `l` and `u`. -/
def bsearch (key : BitVec 32) (table : List Entry) : ℕ → ℕ → ℕ → Option Entry
  | 0, _, _ => none
  | fuel + 1, l, u =>
    if l < u then
      match table[(l + u) / 2]? with
      | some e =>
        -- `cmp_key`: the difference as a signed number
        if (key - e.bit_pattern).toInt < 0 then bsearch key table fuel l ((l + u) / 2)
        else if 0 < (key - e.bit_pattern).toInt then bsearch key table fuel ((l + u) / 2 + 1) u
        else some e
      | none => none
    else none

/-- The index of a pattern, if the table has it. -/
def lookup (key : BitVec 32) (table : List Entry) : Option (BitVec 32) :=
  (bsearch key table table.length 0 table.length).map Entry.index

/-- The pattern at an index. -/
def patternAt (table : List Entry) (index : BitVec 32) : BitVec 32 :=
  ((table[index.toNat]?).map Entry.bit_pattern).getD 0

namespace ControlBits

def access_mode : Field := ⟨0, 1⟩
def mask_control : Field := ⟨1, 1⟩
def dependency_control : Field := ⟨2, 2⟩
def quarter_control : Field := ⟨4, 2⟩
def thread_control : Field := ⟨6, 2⟩
def predicate_control : Field := ⟨8, 4⟩
def predicate_inverse : Field := ⟨12, 1⟩
def execution_size : Field := ⟨13, 3⟩
def saturate : Field := ⟨16, 1⟩
def flag_sub_reg_nr : Field := ⟨17, 1⟩
def flag_reg_nr : Field := ⟨18, 1⟩

end ControlBits

namespace Src3ControlBits

def access_mode : Field := ⟨0, 1⟩
def dependency_control : Field := ⟨1, 2⟩
def nibble_control : Field := ⟨3, 1⟩
def quarter_control : Field := ⟨4, 2⟩
def thread_control : Field := ⟨6, 2⟩
def predicate_control : Field := ⟨8, 4⟩
def predicate_inverse : Field := ⟨12, 1⟩
def execution_size : Field := ⟨13, 3⟩
def conditional_modifier : Field := ⟨16, 4⟩
def acc_wr_control : Field := ⟨20, 1⟩
def flag_sub_reg_nr : Field := ⟨21, 1⟩
def flag_reg_nr : Field := ⟨22, 1⟩
def mask_control : Field := ⟨23, 1⟩

end Src3ControlBits

namespace DataTypeBits

def dest_reg_file : Field := ⟨0, 2⟩
def dest_reg_type : Field := ⟨2, 3⟩
def src0_reg_file : Field := ⟨5, 2⟩
def src0_reg_type : Field := ⟨7, 3⟩
def src1_reg_file : Field := ⟨10, 2⟩
def src1_reg_type : Field := ⟨12, 3⟩
def dest_horiz_stride : Field := ⟨15, 2⟩
def dest_address_mode : Field := ⟨17, 1⟩

end DataTypeBits

namespace Gen8DataTypeBits

def dest_reg_file : Field := ⟨0, 2⟩
def dest_reg_type : Field := ⟨2, 4⟩
def src0_reg_file : Field := ⟨6, 2⟩
def src0_reg_type : Field := ⟨8, 4⟩
def src1_reg_file : Field := ⟨12, 2⟩
def src1_reg_type : Field := ⟨14, 4⟩
def dest_horiz_stride : Field := ⟨18, 2⟩
def dest_address_mode : Field := ⟨20, 1⟩

end Gen8DataTypeBits

namespace SubRegBits

def dest_subreg_nr : Field := ⟨0, 5⟩
def src0_subreg_nr : Field := ⟨5, 5⟩
def src1_subreg_nr : Field := ⟨10, 5⟩

end SubRegBits

namespace SrcRegBits

def src_abs : Field := ⟨0, 1⟩
def src_negate : Field := ⟨1, 1⟩
def src_address_mode : Field := ⟨2, 1⟩
def src_horiz_stride : Field := ⟨3, 2⟩
def src_width : Field := ⟨5, 3⟩
def src_vert_stride : Field := ⟨8, 4⟩

end SrcRegBits

/-! ### Compact instructions -/

structure CompactInsn where
  bits1 : BitVec 32
  bits2 : BitVec 32

-- The form of one or two sources.

namespace Src2Insn

def opcode : Field := ⟨0, 7⟩
def debug_control : Field := ⟨7, 1⟩
def control_index : Field := ⟨8, 5⟩
def data_type_index : Field := ⟨13, 5⟩
def sub_reg_index : Field := ⟨18, 5⟩
def acc_wr_control : Field := ⟨23, 1⟩
def destreg_or_condmod : Field := ⟨24, 4⟩
def cmpt_control : Field := ⟨29, 1⟩
def src0_index_lo : Field := ⟨30, 2⟩
def src0_index_hi : Field := ⟨0, 3⟩
def src1_index : Field := ⟨3, 5⟩
def dest_reg_nr : Field := ⟨8, 8⟩
def src0_reg_nr : Field := ⟨16, 8⟩
def src1_reg_nr : Field := ⟨24, 8⟩

end Src2Insn

-- The form of three sources.

namespace Src3Insn

def control_index : Field := ⟨8, 2⟩
def src_index : Field := ⟨10, 2⟩
def dst_reg_nr : Field := ⟨12, 7⟩
def src0_rep_ctrl : Field := ⟨28, 1⟩
def compact_control : Field := ⟨29, 1⟩
def debug_control : Field := ⟨30, 1⟩
def saturate : Field := ⟨31, 1⟩
def src1_rep_ctrl : Field := ⟨0, 1⟩
def src2_rep_ctrl : Field := ⟨1, 1⟩
def src0_subnr : Field := ⟨2, 3⟩
def src1_subnr : Field := ⟨5, 3⟩
def src2_subnr : Field := ⟨8, 3⟩
def src0_reg_nr : Field := ⟨11, 7⟩
def src1_reg_nr : Field := ⟨18, 7⟩
def src2_reg_nr : Field := ⟨25, 7⟩

end Src3Insn

def nextCompact (opcode : BitVec 7) : CompactInsn where
  bits1 := set Src2Insn.opcode (u32 opcode) 0
  bits2 := 0

/-- The key of the control bits. -/
def controlBits (s : GenInstructionState) (quarter size : BitVec 32) : BitVec 32 :=
  let b := set ControlBits.execution_size size 0
  let b := set ControlBits.mask_control (u32 s.noMask) b
  let b := set ControlBits.quarter_control quarter b
  let b := set ControlBits.predicate_control (u32 s.predicate) b
  let b := set ControlBits.predicate_inverse (u32 s.inversePredicate) b
  let b := set ControlBits.saturate (u32 s.saturate) b
  let b := set ControlBits.flag_sub_reg_nr (u32 s.subFlag) b
  set ControlBits.flag_reg_nr (u32 s.flag) b

def compactControlBits (s : GenInstructionState) (quarter : BitVec 32) (execWidth : BitVec 5) :
    Option (BitVec 32) :=
  if s.nibControl ≠ 0 then none
  else if 1 < s.predicate then none
  else if s.flag = 1 then none
  else (executionSize execWidth).bind fun size => lookup (controlBits s quarter size) control_table

/-- The key of the control bits of three sources. -/
def src3ControlBits (s : GenInstructionState) (quarter size : BitVec 32) : BitVec 32 :=
  let b := set Src3ControlBits.execution_size size 0
  let b := set Src3ControlBits.mask_control (u32 s.noMask) b
  let b := set Src3ControlBits.quarter_control quarter b
  set Src3ControlBits.access_mode 1 b

def compactControlBitsSrc3 (s : GenInstructionState) (quarter : BitVec 32)
    (execWidth : BitVec 5) : Option (BitVec 32) :=
  if s.nibControl ≠ 0 then none
  else if s.predicate ≠ 0 then none
  else if s.inversePredicate ≠ 0 then none
  else if s.flag = 1 then none
  else if s.subFlag ≠ 0 then none
  else if execWidth = 4 ∨ execWidth = 1 then none
  else (executionSize execWidth).bind fun size =>
    lookup (src3ControlBits s quarter size) src3_control_table

/-- The stride of a destination in the key. -/
def keyStride (dst : GenRegister) : BitVec 2 := if dst.hstride = 0 then 1 else dst.hstride

/-- The file and the type of a second source; there may be none. -/
def fileOf (src1 : Option GenRegister) : BitVec 2 := (src1.map GenRegister.file).getD 0

def typeOf (src1 : Option GenRegister) : BitVec 4 := (src1.map GenRegister.type).getD 0

def subnrOf (src1 : Option GenRegister) : BitVec 8 := (src1.map GenRegister.subnr).getD 0

/-- The key of the types. -/
def dataTypeBits (dst src0 : GenRegister) (src1 : Option GenRegister) : BitVec 32 :=
  let b := set DataTypeBits.dest_horiz_stride (u32 (keyStride dst)) 0
  let b := set DataTypeBits.dest_address_mode (u32 dst.address_mode) b
  let b := set DataTypeBits.dest_reg_file (u32 dst.file) b
  let b := set DataTypeBits.dest_reg_type (u32 dst.type) b
  let b := set DataTypeBits.src0_reg_file (u32 src0.file) b
  let b := set DataTypeBits.src0_reg_type (u32 src0.type) b
  let b := set DataTypeBits.src1_reg_type (u32 (typeOf src1)) b
  set DataTypeBits.src1_reg_file (u32 (fileOf src1)) b

def gen8DataTypeBits (dst src0 : GenRegister) (src1 : Option GenRegister) : BitVec 32 :=
  let b := set Gen8DataTypeBits.dest_horiz_stride (u32 (keyStride dst)) 0
  let b := set Gen8DataTypeBits.dest_address_mode (u32 dst.address_mode) b
  let b := set Gen8DataTypeBits.dest_reg_file (u32 dst.file) b
  let b := set Gen8DataTypeBits.dest_reg_type (u32 dst.type) b
  let b := set Gen8DataTypeBits.src0_reg_file (u32 src0.file) b
  let b := set Gen8DataTypeBits.src0_reg_type (u32 src0.type) b
  let b := set Gen8DataTypeBits.src1_reg_type (u32 (typeOf src1)) b
  set Gen8DataTypeBits.src1_reg_file (u32 (fileOf src1)) b

def compactDataTypeBits (v : Version) (dst src0 : GenRegister) (src1 : Option GenRegister) :
    Option (BitVec 32) :=
  if dst.address_mode ≠ 0 then none
  else if src0.file = GEN_IMMEDIATE_VALUE then none
  else match v with
    | .gen7 => lookup (dataTypeBits dst src0 src1) data_type_table
    | .gen8 => lookup (gen8DataTypeBits dst src0 src1) gen8_data_type_table

/-- The key of the subregisters. -/
def subRegBits (dst src0 : GenRegister) (src1 : Option GenRegister) : BitVec 32 :=
  let b := set SubRegBits.dest_subreg_nr (u32 dst.subnr) 0
  let b := set SubRegBits.src0_subreg_nr (u32 src0.subnr) b
  set SubRegBits.src1_subreg_nr (u32 (subnrOf src1)) b

def compactSubRegBits (dst src0 : GenRegister) (src1 : Option GenRegister) : Option (BitVec 32) :=
  lookup (subRegBits dst src0 src1) subreg_table

/-- The key of a source. -/
def srcRegBits (s : GenInstructionState) (src : GenRegister) : BitVec 32 :=
  let b := set SrcRegBits.src_abs (u32 src.absolute) 0
  let b := set SrcRegBits.src_negate (u32 src.negation) b
  let b := set SrcRegBits.src_address_mode (u32 src.address_mode) b
  if s.execWidth = 1 ∧ src.width = 0 then
    set SrcRegBits.src_vert_stride 0
      (set SrcRegBits.src_horiz_stride 0 (set SrcRegBits.src_width (u32 src.width) b))
  else
    set SrcRegBits.src_vert_stride (u32 src.vstride)
      (set SrcRegBits.src_width (u32 src.width)
        (set SrcRegBits.src_horiz_stride (u32 src.hstride) b))

def compactSrcRegBits (s : GenInstructionState) (src : GenRegister) : Option (BitVec 32) :=
  if src.file = GEN_IMMEDIATE_VALUE then none
  else if src.address_mode ≠ 0 then none
  else lookup (srcRegBits s src) srcreg_table

/-- The first word of a compact instruction. -/
def compactBits1 (s : GenInstructionState) (opcode : BitVec 7) (condition control_index
    data_type_index sub_reg_index src0_index : BitVec 32) : BitVec 32 :=
  let b := (nextCompact opcode).bits1
  let b := set Src2Insn.control_index control_index b
  let b := set Src2Insn.data_type_index data_type_index b
  let b := set Src2Insn.sub_reg_index sub_reg_index b
  let b := set Src2Insn.acc_wr_control (u32 s.accWrEnable) b
  let b := set Src2Insn.destreg_or_condmod condition b
  let b := set Src2Insn.cmpt_control 1 b
  set Src2Insn.src0_index_lo (src0_index &&& 3) b

/-- The second word. -/
def compactBits2 (opcode : BitVec 7) (src0_index src1_index dst_nr src0_nr src1_nr : BitVec 32) :
    BitVec 32 :=
  let b := set Src2Insn.src0_index_hi (src0_index >>> 2) (nextCompact opcode).bits2
  let b := set Src2Insn.src1_index src1_index b
  let b := set Src2Insn.dest_reg_nr dst_nr b
  let b := set Src2Insn.src0_reg_nr src0_nr b
  set Src2Insn.src1_reg_nr src1_nr b

def compactAlu1 (v : Version) (s : GenInstructionState) (opcode : BitVec 7)
    (dst src : GenRegister) (condition : BitVec 32) (split : Bool) : Option CompactInsn :=
  if split then none
  else
    (compactControlBits s (u32 s.quarterControl) s.execWidth).bind fun control_index =>
    (compactDataTypeBits v dst src none).bind fun data_type_index =>
    (compactSubRegBits dst src none).bind fun sub_reg_index =>
    (compactSrcRegBits s src).map fun src_reg_index =>
      ⟨compactBits1 s opcode condition control_index data_type_index sub_reg_index src_reg_index,
        compactBits2 opcode src_reg_index 0 (u32 dst.nr) (u32 src.nr) 0⟩

/-- The index and the number of a second source, which may be a constant of 13 bits. -/
def compactSrc1 (s : GenInstructionState) (src1 : GenRegister) :
    Option (BitVec 32 × BitVec 32) :=
  if src1.file = GEN_IMMEDIATE_VALUE then
    if src1.absolute ≠ 0 ∨ src1.negation ≠ 0 ∨ src1.type = GEN_TYPE_F then none
    else if src1.ud.toInt < -4096 ∨ 4095 < src1.ud.toInt then none
    else some ((src1.ud &&& 8191) >>> 8, src1.ud &&& 0xff)
  else (compactSrcRegBits s src1).map fun index => (index, u32 src1.nr)

def compactAlu2 (v : Version) (s : GenInstructionState) (opcode : BitVec 7)
    (dst src0 src1 : GenRegister) (condition : BitVec 32) (split : Bool) : Option CompactInsn :=
  if split then none
  else if opcode = GEN_OPCODE_IF ∨ opcode = GEN_OPCODE_ENDIF ∨ opcode = GEN_OPCODE_JMPI then none
  else
    (compactControlBits s (u32 s.quarterControl) s.execWidth).bind fun control_index =>
    (compactDataTypeBits v dst src0 (some src1)).bind fun data_type_index =>
    (compactSubRegBits dst src0 (some src1)).bind fun sub_reg_index =>
    (compactSrcRegBits s src0).bind fun src0_reg_index =>
    (compactSrc1 s src1).map fun p =>
      ⟨compactBits1 s opcode condition control_index data_type_index sub_reg_index src0_reg_index,
        compactBits2 opcode src0_reg_index p.1 (u32 dst.nr) (u32 src0.nr) p.2⟩

def compactAlu3 (v : Version) (s : GenInstructionState) (opcode : BitVec 7)
    (dst src0 src1 src2 : GenRegister) : Option CompactInsn :=
  if v = .gen7 then none
  else if opcode ≠ GEN_OPCODE_MAD ∧ opcode ≠ GEN_OPCODE_LRP then none
  else if src0.type ≠ GEN_TYPE_F then none
  else if ¬ (Gen8.src3Register src0 ∧ Gen8.src3Register src1 ∧ Gen8.src3Register src2) then none
  else
    (compactControlBitsSrc3 s (u32 s.quarterControl) s.execWidth).bind fun control_index =>
      if 1 < u32 src0.negation + u32 src1.negation + u32 src2.negation then none
      else if 0 < u32 src0.absolute + u32 src1.absolute + u32 src2.absolute then none
      else
        let b := (nextCompact opcode).bits1
        let b := set Src3Insn.control_index control_index b
        let b := set Src3Insn.compact_control 1 b
        let b := set Src3Insn.src_index (if src0.negation = 1 then 1 else
          if src1.negation = 1 then 2 else if src2.negation = 1 then 3 else 0) b
        let b := set Src3Insn.dst_reg_nr (u32 dst.nr) b
        let b := set Src3Insn.src0_rep_ctrl (Gen8.repCtrl src0) b
        let b := set Src3Insn.saturate (u32 s.saturate) b
        let b' := set Src3Insn.src1_rep_ctrl (Gen8.repCtrl src1) (nextCompact opcode).bits2
        let b' := set Src3Insn.src2_rep_ctrl (Gen8.repCtrl src2) b'
        let b' := set Src3Insn.src0_subnr (u32 src0.subnr / 4) b'
        let b' := set Src3Insn.src1_subnr (u32 src1.subnr / 4) b'
        let b' := set Src3Insn.src2_subnr (u32 src2.subnr / 4) b'
        let b' := set Src3Insn.src0_reg_nr (u32 src0.nr) b'
        let b' := set Src3Insn.src1_reg_nr (u32 src1.nr) b'
        some ⟨b, set Src3Insn.src2_reg_nr (u32 src2.nr) b'⟩

/-! ### Decompaction -/

/-- The index of the first source, in two parts. -/
def src0Index (p : CompactInsn) : BitVec 32 :=
  get Src2Insn.src0_index_lo p.bits1 ||| get Src2Insn.src0_index_hi p.bits2 <<< 2

/-- The constant of 13 bits, as a signed number. -/
def immediate (p : CompactInsn) : BitVec 32 :=
  let imm := get Src2Insn.src1_reg_nr p.bits2 ||| get Src2Insn.src1_index p.bits2 <<< 8
  if imm &&& 0x1000 ≠ 0 then imm ||| 0xfffff000 else imm

/-- The second source, where it is a register. -/
def decompactSrc1 (p : CompactInsn) (subreg_bits : BitVec 32) : BitVec 32 :=
  set Src.reg_nr (get Src2Insn.src1_reg_nr p.bits2)
      (set Src.subreg_nr (get SubRegBits.src1_subreg_nr subreg_bits) 0) |||
    patternAt srcreg_table (get Src2Insn.src1_index p.bits2) <<< 13

def decompactGen7 (p : CompactInsn) : Native :=
  let control_bits := patternAt control_table (get Src2Insn.control_index p.bits1)
  let header := get Src2Insn.opcode p.bits1 ||| (control_bits &&& 0xffff) <<< 8
  let header := set Header.destreg_or_condmod (get Src2Insn.destreg_or_condmod p.bits1) header
  let header := set Header.saturate (get ControlBits.saturate control_bits) header
  let header := set Header.acc_wr_control (get Src2Insn.acc_wr_control p.bits1) header
  let header := set Header.cmpt_control (get Src2Insn.cmpt_control p.bits1) header
  let header := set Header.debug_control (get Src2Insn.debug_control p.bits1) header
  let data_type_bits := patternAt data_type_decompact (get Src2Insn.data_type_index p.bits1)
  let subreg_bits := patternAt subreg_table (get Src2Insn.sub_reg_index p.bits1)
  let src0_bits := patternAt srcreg_table (src0Index p)
  let bits1 := 0 ||| (data_type_bits &&& 0x7fff)
  let bits1 := set Gen7.dest_horiz_stride (get DataTypeBits.dest_horiz_stride data_type_bits) bits1
  let bits1 := set Gen7.dest_address_mode (get DataTypeBits.dest_address_mode data_type_bits) bits1
  let bits1 := set Gen7.dest_reg_nr (get Src2Insn.dest_reg_nr p.bits2) bits1
  let bits1 := set Gen7.dest_subreg_nr (get SubRegBits.dest_subreg_nr subreg_bits) bits1
  let bits2 := set Src.subreg_nr (get SubRegBits.src0_subreg_nr subreg_bits) 0
  let bits2 := set Src.reg_nr (get Src2Insn.src0_reg_nr p.bits2) bits2 ||| src0_bits <<< 13
  let bits2 := set Gen7.flag_sub_reg_nr (get ControlBits.flag_sub_reg_nr control_bits) bits2
  { header := header
    bits1 := bits1
    bits2 := set Gen7.flag_reg_nr (get ControlBits.flag_reg_nr control_bits) bits2
    bits3 :=
      if get DataTypeBits.src1_reg_file data_type_bits = u32 GEN_IMMEDIATE_VALUE then immediate p
      else decompactSrc1 p subreg_bits }

def decompactGen8 (p : CompactInsn) : Native :=
  let control_bits := patternAt control_table (get Src2Insn.control_index p.bits1)
  let header := set Header.opcode (get Src2Insn.opcode p.bits1) 0
  let bits1 := set Gen8.flag_sub_reg_nr (get ControlBits.flag_sub_reg_nr control_bits) 0
  let bits1 := set Gen8.flag_reg_nr (get ControlBits.flag_reg_nr control_bits) bits1
  let header := set Header.saturate (get ControlBits.saturate control_bits) header
  let header := set Header.execution_size (get ControlBits.execution_size control_bits) header
  let header := set Header.predicate_control (get ControlBits.predicate_control control_bits) header
  let header := set Header.predicate_inverse (get ControlBits.predicate_inverse control_bits) header
  let header := set Header.thread_control (get ControlBits.thread_control control_bits) header
  let header := set Header.quarter_control (get ControlBits.quarter_control control_bits) header
  let header :=
    set Gen8.dependency_control (get ControlBits.dependency_control control_bits) header
  let header := set Header.access_mode (get ControlBits.access_mode control_bits) header
  let bits1 := set Gen8.mask_control (get ControlBits.mask_control control_bits) bits1
  let header := set Header.destreg_or_condmod (get Src2Insn.destreg_or_condmod p.bits1) header
  let header := set Header.acc_wr_control (get Src2Insn.acc_wr_control p.bits1) header
  let header := set Header.cmpt_control (get Src2Insn.cmpt_control p.bits1) header
  let header := set Header.debug_control (get Src2Insn.debug_control p.bits1) header
  let data_type_bits := patternAt gen8_data_type_table (get Src2Insn.data_type_index p.bits1)
  let subreg_bits := patternAt subreg_table (get Src2Insn.sub_reg_index p.bits1)
  let src0_bits := patternAt srcreg_table (src0Index p)
  let bits1 := set Gen8.dest_reg_file (get Gen8DataTypeBits.dest_reg_file data_type_bits) bits1
  let bits1 := set Gen8.dest_reg_type (get Gen8DataTypeBits.dest_reg_type data_type_bits) bits1
  let bits1 :=
    set Gen8.dest_horiz_stride (get Gen8DataTypeBits.dest_horiz_stride data_type_bits) bits1
  let bits1 :=
    set Gen8.dest_address_mode (get Gen8DataTypeBits.dest_address_mode data_type_bits) bits1
  let bits1 := set Gen8.dest_reg_nr (get Src2Insn.dest_reg_nr p.bits2) bits1
  let bits1 := set Gen8.dest_subreg_nr (get SubRegBits.dest_subreg_nr subreg_bits) bits1
  let bits1 := set Gen8.src0_reg_file (get Gen8DataTypeBits.src0_reg_file data_type_bits) bits1
  let bits1 := set Gen8.src0_reg_type (get Gen8DataTypeBits.src0_reg_type data_type_bits) bits1
  let bits2 := set Src.subreg_nr (get SubRegBits.src0_subreg_nr subreg_bits) 0
  let bits2 := set Src.reg_nr (get Src2Insn.src0_reg_nr p.bits2) bits2 ||| src0_bits <<< 13
  let bits2 := set Gen8.src1_reg_file (get Gen8DataTypeBits.src1_reg_file data_type_bits) bits2
  { header := header
    bits1 := bits1
    bits2 := set Gen8.src1_reg_type (get Gen8DataTypeBits.src1_reg_type data_type_bits) bits2
    bits3 :=
      if get Gen8DataTypeBits.src1_reg_file data_type_bits = u32 GEN_IMMEDIATE_VALUE then
        immediate p
      else decompactSrc1 p subreg_bits }

/-- A bit that is set when the source is the one that is negated. -/
def isSource (p : CompactInsn) (k : BitVec 32) : BitVec 32 :=
  if get Src3Insn.src_index p.bits1 = k then 1 else 0

def decompactSrc3 (p : CompactInsn) : Native :=
  let control_bits := patternAt src3_control_table (get Src3Insn.control_index p.bits1)
  let header := set Header.opcode (get Src2Insn.opcode p.bits1) 0
  let bits1 := set Gen8.flag_sub_reg_nr (get Src3ControlBits.flag_sub_reg_nr control_bits) 0
  let bits1 := set Gen8.flag_reg_nr (get Src3ControlBits.flag_reg_nr control_bits) bits1
  let header := set Gen8.nib_ctrl (get Src3ControlBits.nibble_control control_bits) header
  let header := set Header.execution_size (get Src3ControlBits.execution_size control_bits) header
  let header :=
    set Header.predicate_control (get Src3ControlBits.predicate_control control_bits) header
  let header :=
    set Header.predicate_inverse (get Src3ControlBits.predicate_inverse control_bits) header
  let header := set Header.thread_control (get Src3ControlBits.thread_control control_bits) header
  let header := set Header.quarter_control (get Src3ControlBits.quarter_control control_bits) header
  let header :=
    set Gen8.dependency_control (get Src3ControlBits.dependency_control control_bits) header
  let header := set Header.access_mode (get Src3ControlBits.access_mode control_bits) header
  let header := set Header.acc_wr_control (get Src3ControlBits.acc_wr_control control_bits) header
  let header :=
    set Header.destreg_or_condmod (get Src3ControlBits.conditional_modifier control_bits) header
  let bits1 := set Gen8.mask_control (get Src3ControlBits.mask_control control_bits) bits1
  let header := set Header.cmpt_control (get Src2Insn.cmpt_control p.bits1) header
  let header := set Header.debug_control (get Src2Insn.debug_control p.bits1) header
  let header := set Header.saturate (get Src3Insn.saturate p.bits1) header
  let bits1 := set Gen8.Da3src.dest_reg_nr (get Src3Insn.dst_reg_nr p.bits1) bits1
  let bits1 := set Gen8.Da3src.dest_writemask 0xf bits1
  let bits2 := set Gen8.Da3src.src0_swizzle Gen8.NO_SWIZZLE 0
  let bits2 := set Gen8.Da3src.src0_subreg_nr (get Src3Insn.src0_subnr p.bits2) bits2
  let bits2 := set Gen8.Da3src.src0_reg_nr (get Src3Insn.src0_reg_nr p.bits2) bits2
  let bits1 := set Gen8.Da3src.src0_negate (isSource p 1) bits1
  let bits2 := set Gen8.Da3src.src0_rep_ctrl (get Src3Insn.src0_rep_ctrl p.bits1) bits2
  let bits2 := set Gen8.Da3src.src1_swizzle Gen8.NO_SWIZZLE bits2
  let bits2 :=
    set Gen8.Da3src.src1_subreg_nr_low (get Src3Insn.src1_subnr p.bits2 &&& 0x3) bits2
  let bits3 := set Gen8.Da3src.src1_subreg_nr_high (get Src3Insn.src1_subnr p.bits2 >>> 2) 0
  let bits2 := set Gen8.Da3src.src1_rep_ctrl (get Src3Insn.src1_rep_ctrl p.bits2) bits2
  let bits3 := set Gen8.Da3src.src1_reg_nr (get Src3Insn.src1_reg_nr p.bits2) bits3
  let bits1 := set Gen8.Da3src.src1_negate (isSource p 2) bits1
  let bits3 := set Gen8.Da3src.src2_swizzle Gen8.NO_SWIZZLE bits3
  let bits3 := set Gen8.Da3src.src2_subreg_nr (get Src3Insn.src2_subnr p.bits2) bits3
  let bits3 := set Gen8.Da3src.src2_rep_ctrl (get Src3Insn.src2_rep_ctrl p.bits2) bits3
  let bits3 := set Gen8.Da3src.src2_reg_nr (get Src3Insn.src2_reg_nr p.bits2) bits3
  { header := header
    bits1 := set Gen8.Da3src.src2_negate (isSource p 3) bits1
    bits2 := bits2
    bits3 := bits3 }

def decompactInstruction (p : CompactInsn) (v : Version) : Option Native :=
  if isSrc3 (get Src2Insn.opcode p.bits1) then
    if v = .gen8 then some (decompactSrc3 p) else none
  else match v with
    | .gen7 => some (decompactGen7 p)
    | .gen8 => some (decompactGen8 p)

end Compact
