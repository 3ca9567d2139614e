/-
The layouts of native instructions: the unions of `gen7_instruction.hpp` and
`gen8_instruction.hpp`.

An instruction is read with `ia1` where the address mode is indirect, with the whole words of an
immediate, and with `da1` otherwise.  What is read are the operands and the state that the
encoder is given, up to the region of a scalar, the stride 0 of a destination, and the inverse of
no predicate.

* `setWidth_truncate_eq_iff` — what a narrow field keeps;
* `readDest_iff`, `readSrc0_iff` — an operand comes back from the words that hold its fields
  exactly when it fits them.
-/
import Beignet.Backend.CompactionRoundTrip

namespace Compact

open BitFields

/-! ### Operands -/

/-- What an operand says. -/
inductive Operand where
  | direct (file : BitVec 2) (type : BitVec 4) (nr subnr : BitVec 8) (vstride : BitVec 4)
    (width : BitVec 3) (hstride : BitVec 2) (negation absolute : BitVec 1)
  | indirect (file : BitVec 2) (type a0_subnr : BitVec 4) (addr_imm : BitVec 10)
    (vstride : BitVec 4) (width : BitVec 3) (hstride : BitVec 2) (negation absolute : BitVec 1)
  | immediate (type : BitVec 4) (value : BitVec 64)
  deriving DecidableEq

inductive Dest where
  | direct (file : BitVec 2) (type : BitVec 4) (nr subnr : BitVec 8) (hstride : BitVec 2)
  | indirect (file : BitVec 2) (type a0_subnr : BitVec 4) (addr_imm : BitVec 10)
    (hstride : BitVec 2)

/-- A destination of stride 0 gets another one. -/
def destOf (dest : GenRegister) : Dest :=
  if dest.address_mode = 0 then .direct dest.file dest.type dest.nr dest.subnr (dstStride dest)
  else .indirect dest.file dest.type dest.a0_subnr dest.addr_imm (dstStride dest)

/-- The region of a scalar of an instruction of one lane is `<0;1,0>`. -/
def operandOf (curr : GenInstructionState) (reg : GenRegister) : Operand :=
  if reg.file = GEN_IMMEDIATE_VALUE then
    .immediate reg.type (if Gen8.isLong reg.type then reg.value else reg.ud.setWidth 64)
  else if reg.address_mode = 0 then
    if reg.width = 0 ∧ curr.execWidth = 1 then
      .direct reg.file reg.type reg.nr reg.subnr 0 0 0 reg.negation reg.absolute
    else
      .direct reg.file reg.type reg.nr reg.subnr reg.vstride reg.width reg.hstride reg.negation
        reg.absolute
  else
    .indirect reg.file reg.type reg.a0_subnr reg.addr_imm reg.vstride reg.width reg.hstride
      reg.negation reg.absolute

/-- What is encoded of a state: there is no inverse of no predicate. -/
def stateOf (curr : GenInstructionState) : GenInstructionState :=
  { curr with inversePredicate := if curr.predicate ≠ 0 then curr.inversePredicate else 0 }

def StateFits (curr : GenInstructionState) : Prop :=
  curr.predicate ≠ 0 ∨ curr.inversePredicate = 0

instance (curr : GenInstructionState) : Decidable (StateFits curr) :=
  inferInstanceAs (Decidable (_ ∨ _))

theorem stateOf_eq_iff (curr : GenInstructionState) : stateOf curr = curr ↔ StateFits curr := by
  have hfield : stateOf curr = curr ↔
      (if curr.predicate ≠ 0 then curr.inversePredicate else 0) = curr.inversePredicate :=
    ⟨fun h => congrArg GenInstructionState.inversePredicate h, fun h => by rw [stateOf, h]⟩
  rw [hfield, StateFits]
  split
  · next hpred => exact iff_of_true rfl (Or.inl hpred)
  · next hpred => rw [or_iff_right hpred, eq_comm]

/-! ### Layouts -/

def read (f : Field) (k : ℕ) (word : BitVec 32) : BitVec k := (get f word).setWidth k

/-- The execution width of a size. -/
def execWidthOf (size : BitVec 3) : BitVec 5 :=
  if size = 3 then 8 else if size = 4 then 16 else if size = 2 then 4 else 1

/-- A source in direct mode. -/
def readDirect (file : BitVec 2) (type : BitVec 4) (word : BitVec 32) : Operand :=
  .direct file type (read Src.reg_nr 8 word) (read Src.subreg_nr 8 word)
    (read Src.vert_stride 4 word) (read Src.width 3 word) (read Src.horiz_stride 2 word)
    (read Src.negate 1 word) (read Src.abs 1 word)

def readIndirect (file : BitVec 2) (type a0_subnr : BitVec 4) (addr_imm : BitVec 10)
    (word : BitVec 32) : Operand :=
  .indirect file type a0_subnr addr_imm (read Src.vert_stride 4 word) (read Src.width 3 word)
    (read Src.horiz_stride 2 word) (read Src.negate 1 word) (read Src.abs 1 word)

namespace Gen7

def dest_indirect_offset : Field := ⟨16, 10⟩
def dest_indirect_subreg_nr : Field := ⟨26, 3⟩

def readState (insn : Native) : GenInstructionState where
  flag := if isSrc3 (get Header.opcode insn.header) then read da3src_flag_reg_nr 1 insn.bits1
    else read flag_reg_nr 1 insn.bits2
  subFlag := if isSrc3 (get Header.opcode insn.header) then
      read da3src_flag_sub_reg_nr 1 insn.bits1
    else read flag_sub_reg_nr 1 insn.bits2
  execWidth := execWidthOf (read Header.execution_size 3 insn.header)
  quarterControl := read Header.quarter_control 1 insn.header
  nibControl := read nib_ctrl 1 insn.bits1
  accWrEnable := read Header.acc_wr_control 1 insn.header
  noMask := read mask_control 1 insn.header
  predicate := read Header.predicate_control 4 insn.header
  inversePredicate := read Header.predicate_inverse 1 insn.header
  saturate := read Header.saturate 1 insn.header

def readDest (insn : Native) : Dest :=
  let file := read dest_reg_file 2 insn.bits1
  let type := read dest_reg_type 4 insn.bits1
  let hstride := read dest_horiz_stride 2 insn.bits1
  if get dest_address_mode insn.bits1 = 0 then
    .direct file type (read dest_reg_nr 8 insn.bits1) (read dest_subreg_nr 8 insn.bits1) hstride
  else
    .indirect file type (read dest_indirect_subreg_nr 4 insn.bits1)
      (read dest_indirect_offset 10 insn.bits1) hstride

def readSrc0 (insn : Native) : Operand :=
  let file := read src0_reg_file 2 insn.bits1
  let type := read src0_reg_type 4 insn.bits1
  if file = GEN_IMMEDIATE_VALUE then .immediate type (insn.bits3.setWidth 64)
  else if get Src.address_mode insn.bits2 = 0 then readDirect file type insn.bits2
  else
    readIndirect file type (read src0_indirect_subreg_nr 4 insn.bits2)
      (read src0_indirect_offset 10 insn.bits2) insn.bits2

def readSrc1 (insn : Native) : Operand :=
  let file := read src1_reg_file 2 insn.bits1
  let type := read src1_reg_type 4 insn.bits1
  if file = GEN_IMMEDIATE_VALUE then .immediate type (insn.bits3.setWidth 64)
  else readDirect file type insn.bits3

end Gen7

namespace Gen8

def dest_indirect_offset_9 : Field := ⟨15, 1⟩
def dest_indirect_offset : Field := ⟨16, 9⟩
def dest_indirect_subreg_nr : Field := ⟨25, 4⟩

def readState (insn : Native) : GenInstructionState where
  flag := read flag_reg_nr 1 insn.bits1
  subFlag := read flag_sub_reg_nr 1 insn.bits1
  execWidth := execWidthOf (read Header.execution_size 3 insn.header)
  quarterControl := read Header.quarter_control 1 insn.header
  nibControl := read nib_ctrl 1 insn.header
  accWrEnable := read Header.acc_wr_control 1 insn.header
  noMask := read mask_control 1 insn.bits1
  predicate := read Header.predicate_control 4 insn.header
  inversePredicate := read Header.predicate_inverse 1 insn.header
  saturate := read Header.saturate 1 insn.header

def readDest (insn : Native) : Dest :=
  let file := read dest_reg_file 2 insn.bits1
  let type := read dest_reg_type 4 insn.bits1
  let hstride := read dest_horiz_stride 2 insn.bits1
  if get dest_address_mode insn.bits1 = 0 then
    .direct file type (read dest_reg_nr 8 insn.bits1) (read dest_subreg_nr 8 insn.bits1) hstride
  else
    .indirect file type (read dest_indirect_subreg_nr 4 insn.bits1)
      (read dest_indirect_offset_9 1 insn.bits1 ++ read dest_indirect_offset 9 insn.bits1) hstride

def readSrc0 (insn : Native) : Operand :=
  let file := read src0_reg_file 2 insn.bits1
  let type := read src0_reg_type 4 insn.bits1
  if file = GEN_IMMEDIATE_VALUE then
    .immediate type (if isLong type then insn.bits3 ++ insn.bits2 else insn.bits3.setWidth 64)
  else if get Src.address_mode insn.bits2 = 0 then readDirect file type insn.bits2
  else
    readIndirect file type (read src0_indirect_subreg_nr 4 insn.bits2)
      (read src0_indirect_offset_9 1 insn.bits2 ++ read src0_indirect_offset 9 insn.bits2)
      insn.bits2

def readSrc1 (insn : Native) : Operand :=
  let file := read src1_reg_file 2 insn.bits2
  let type := read src1_reg_type 4 insn.bits2
  if file = GEN_IMMEDIATE_VALUE then .immediate type (insn.bits3.setWidth 64)
  else readDirect file type insn.bits3

end Gen8

namespace Version

def readState : Version → Native → GenInstructionState
  | gen7 => Gen7.readState
  | gen8 => Gen8.readState

def readDest : Version → Native → Dest
  | gen7 => Gen7.readDest
  | gen8 => Gen8.readDest

def readSrc0 : Version → Native → Operand
  | gen7 => Gen7.readSrc0
  | gen8 => Gen8.readSrc0

def readSrc1 : Version → Native → Operand
  | gen7 => Gen7.readSrc1
  | gen8 => Gen8.readSrc1

end Version

/-! ### Fields of a width -/

theorem setWidth_truncate {k n : ℕ} (x : BitVec k) (hk : k ≤ n) (hn : n ≤ 32) :
    (truncate n (u32 x)).setWidth k = x := by
  refine BitVec.eq_of_getLsbD_eq fun i hi => ?_
  rw [BitVec.getLsbD_setWidth, getLsbD_truncate, BitVec.getLsbD_setWidth]
  simp [hi, show i < n by omega, show i < 32 by omega]

/-- What a narrow field keeps. -/
theorem setWidth_truncate_eq_iff {k n : ℕ} (x : BitVec k) (hk : k ≤ 32) (hn : n ≤ 32) :
    (truncate n (u32 x)).setWidth k = x ↔ x.toNat < 2 ^ n := by
  have hlt : x.toNat < 2 ^ 32 := x.isLt.trans_le (Nat.pow_le_pow_right (by decide) hk)
  have htoNat : ((truncate n (u32 x)).setWidth k).toNat = x.toNat % 2 ^ n := by
    rw [BitVec.toNat_setWidth, toNat_truncate _ hn, BitVec.toNat_setWidth, Nat.mod_eq_of_lt hlt]
    exact Nat.mod_eq_of_lt ((Nat.mod_le _ _).trans_lt x.isLt)
  rw [← BitVec.toNat_inj, htoNat, Nat.mod_eq_iff_lt (Nat.two_pow_pos n).ne']

theorem read_assign {f : Field} {k : ℕ} {x : BitVec k} {ws : List (Field × BitVec 32)}
    {word : BitVec 32} (hk : k ≤ f.width) (hf : f.lo + f.width ≤ 32)
    (hws : (ws.map Prod.fst).Pairwise Apart) (h : (f, u32 x) ∈ ws) :
    read f k (assign ws word) = x := by
  rw [read, get_assign hf hws h, setWidth_truncate x hk (by omega)]

/-! ### The destination -/

def Version.dest_reg_file : Version → Field
  | gen7 => Gen7.dest_reg_file
  | gen8 => Gen8.dest_reg_file

def Version.dest_reg_type : Version → Field
  | gen7 => Gen7.dest_reg_type
  | gen8 => Gen8.dest_reg_type

/-- The assignments for a destination, direct or not. -/
def dstWrites (v : Version) (dest : GenRegister) : List (Field × BitVec 32) :=
  [(v.dest_reg_file, u32 dest.file), (v.dest_reg_type, u32 dest.type),
    (Gen7.dest_address_mode, u32 dest.address_mode), (Gen7.dest_reg_nr, u32 dest.nr),
    (Gen7.dest_subreg_nr, u32 dest.subnr), (Gen7.dest_horiz_stride, u32 (dstStride dest))]

/-- The fields of Gen7 have three bits for a type. -/
def TypeFits : Version → BitVec 4 → Prop
  | .gen7, type => type.toNat < 8
  | .gen8, _ => True

instance : (v : Version) → (type : BitVec 4) → Decidable (TypeFits v type)
  | .gen7, type => inferInstanceAs (Decidable (type.toNat < 8))
  | .gen8, _ => .isTrue trivial

/-- The number of an indirect destination is where its address should be. -/
def Spells : Version → GenRegister → Prop
  | .gen7, dest => dest.a0_subnr = (dest.nr >>> 5).setWidth 4 ∧
      dest.addr_imm = dest.nr.setWidth 5 ++ dest.subnr.setWidth 5
  | .gen8, dest => dest.a0_subnr = (dest.nr >>> 4).setWidth 4 ∧
      dest.addr_imm = 0#1 ++ (dest.nr.setWidth 4 ++ dest.subnr.setWidth 5)

instance : (v : Version) → (dest : GenRegister) → Decidable (Spells v dest)
  | .gen7, _ => inferInstanceAs (Decidable (_ ∧ _))
  | .gen8, _ => inferInstanceAs (Decidable (_ ∧ _))

def DestFits (v : Version) (dest : GenRegister) : Prop :=
  TypeFits v dest.type ∧ if dest.address_mode = 0 then dest.subnr.toNat < 32 else Spells v dest

instance (v : Version) (dest : GenRegister) : Decidable (DestFits v dest) :=
  inferInstanceAs (Decidable (TypeFits v dest.type ∧
    if dest.address_mode = 0 then dest.subnr.toNat < 32 else Spells v dest))

section

variable {curr : GenInstructionState} {v : Version} {insn n : Native} {dest : GenRegister}

theorem setDst_assign (h : v.setDst insn dest = some n) :
    n = { insn with bits1 := assign (dstWrites v dest) insn.bits1 } := by
  cases v with
  | gen7 =>
    simp only [Version.setDst, Gen7.setDst] at h
    split_ifs at h
    exact (Option.some.inj h).symm
  | gen8 =>
    simp only [Version.setDst, Gen8.setDst] at h
    split_ifs at h
    exact (Option.some.inj h).symm

/-- The bits of a field. -/
theorem getLsbD_of_get {f : Field} {k : ℕ} {x : BitVec k} {word : BitVec 32} (hf : f.width ≤ 32)
    (h : get f word = truncate f.width (u32 x)) {i : ℕ} (hi : i < f.width) :
    word.getLsbD (f.lo + i) = x.getLsbD i := by
  have hbit := congrArg (fun z => z.getLsbD i) h
  simp only [getLsbD_get, getLsbD_truncate, BitVec.getLsbD_setWidth, hi, decide_true,
    Bool.true_and, show i < 32 by omega] at hbit
  exact hbit

section

variable {word : BitVec 32} (hnr : get Gen7.dest_reg_nr word = truncate 8 (u32 dest.nr))
  (hsubnr : get Gen7.dest_subreg_nr word = truncate 5 (u32 dest.subnr))

include hnr

/-- The sub-register of an address is in the high bits of the number. -/
theorem read_indirect_subreg_nr {k : ℕ} (hk : k ≤ 4) :
    read ⟨29 - k, k⟩ 4 word = (dest.nr >>> (8 - k)).setWidth 4 := by
  refine BitVec.eq_of_getLsbD_eq fun i hi => ?_
  rw [read, BitVec.getLsbD_setWidth, getLsbD_get, BitVec.getLsbD_setWidth,
    BitVec.getLsbD_ushiftRight]
  by_cases hik : i < k
  · have hbit := getLsbD_of_get (by decide) hnr (show 8 - k + i < 8 by omega)
    rw [show Gen7.dest_reg_nr.lo + (8 - k + i) = 29 - k + i by
      show 21 + (8 - k + i) = _
      omega] at hbit
    simp [hi, hik, hbit]
  · simp [hik, BitVec.getLsbD_of_ge dest.nr (8 - k + i) (by omega)]

include hsubnr

/-- The offset is in the low bits of the number and in the sub-register. -/
theorem read_indirect_offset {k : ℕ} (hk : k ≤ 8) :
    read ⟨16, k + 5⟩ (k + 5) word = dest.nr.setWidth k ++ dest.subnr.setWidth 5 := by
  refine BitVec.eq_of_getLsbD_eq fun i hi => ?_
  rw [read, BitVec.getLsbD_setWidth, getLsbD_get, BitVec.getLsbD_append]
  by_cases hlow : i < 5
  · have hbit := getLsbD_of_get (by decide) hsubnr (show i < 5 from hlow)
    rw [show Gen7.dest_subreg_nr.lo + i = 16 + i from rfl] at hbit
    simp [hi, hlow, hbit]
  · have hbit := getLsbD_of_get (by decide) hnr (show i - 5 < 8 by omega)
    rw [show Gen7.dest_reg_nr.lo + (i - 5) = 16 + i by
      show 21 + (i - 5) = _
      omega] at hbit
    simp [hi, hlow, hbit, show i - 5 < k by omega]

end

theorem bit_eq_zero_iff (x : BitVec 1) : truncate 1 (u32 x) = 0 ↔ x = 0 := by
  revert x
  decide

/-- The bits of a type. -/
def Version.typeWidth : Version → ℕ
  | gen7 => 3
  | gen8 => 4

theorem read_type_iff {f : Field} {type : BitVec 4} {word : BitVec 32} (hf : f.width = v.typeWidth)
    (h : get f word = truncate f.width (u32 type)) : read f 4 word = type ↔ TypeFits v type := by
  rw [read, h, hf]
  cases v with
  | gen7 => exact setWidth_truncate_eq_iff _ (by decide) (by decide)
  | gen8 => exact iff_of_true (setWidth_truncate _ le_rfl (by decide)) trivial

/-- A destination comes back from the word that it was assigned in. -/
theorem readDest_iff (hbits : ∀ p ∈ dstWrites v dest, get p.1 n.bits1 = truncate p.1.width p.2)
    (hpad : v = .gen8 → get ⟨15, 1⟩ n.bits1 = 0) :
    v.readDest n = destOf dest ↔ DestFits v dest := by
  simp only [dstWrites, List.forall_mem_cons] at hbits
  obtain ⟨hfile, htype, hmode, hnr, hsubnr, hstride, -⟩ := hbits
  have hreadFile : read v.dest_reg_file 2 n.bits1 = dest.file := by
    rw [read, hfile]
    cases v <;> exact setWidth_truncate _ le_rfl (by decide)
  have hreadType := read_type_iff (v := v) (by cases v <;> rfl) htype
  have hreadStride : read Gen7.dest_horiz_stride 2 n.bits1 = dstStride dest := by
    rw [read, hstride]
    exact setWidth_truncate _ le_rfl (by decide)
  have hzero : get Gen7.dest_address_mode n.bits1 = 0 ↔ dest.address_mode = 0 := by
    rw [hmode]
    exact bit_eq_zero_iff _
  have hreadNr : read Gen7.dest_reg_nr 8 n.bits1 = dest.nr := by
    rw [read, hnr]
    exact setWidth_truncate _ le_rfl (by decide)
  have hreadSubnr : read Gen7.dest_subreg_nr 8 n.bits1 = dest.subnr ↔ dest.subnr.toNat < 32 := by
    rw [read, hsubnr]
    exact setWidth_truncate_eq_iff _ (by decide) (by decide)
  have hdirect : v.readDest n = if dest.address_mode = 0 then
      .direct dest.file (read v.dest_reg_type 4 n.bits1) dest.nr
        (read Gen7.dest_subreg_nr 8 n.bits1) (dstStride dest)
      else match v with
        | .gen7 => .indirect dest.file (read Gen7.dest_reg_type 4 n.bits1)
            ((dest.nr >>> 5).setWidth 4) (dest.nr.setWidth 5 ++ dest.subnr.setWidth 5)
            (dstStride dest)
        | .gen8 => .indirect dest.file (read Gen8.dest_reg_type 4 n.bits1)
            ((dest.nr >>> 4).setWidth 4) (0#1 ++ (dest.nr.setWidth 4 ++ dest.subnr.setWidth 5))
            (dstStride dest) := by
    cases v with
    | gen7 =>
      have hreadFile : read Gen7.dest_reg_file 2 n.bits1 = dest.file := hreadFile
      have hsub : read Gen7.dest_indirect_subreg_nr 4 n.bits1 = _ :=
        read_indirect_subreg_nr hnr (k := 3) (by decide)
      have hoffset : read Gen7.dest_indirect_offset 10 n.bits1 = _ :=
        read_indirect_offset hnr hsubnr (k := 5) (by decide)
      simp only [Version.readDest, Gen7.readDest, hzero, hreadFile, hreadNr, hreadStride, hsub,
        hoffset]
      rfl
    | gen8 =>
      have hreadFile : read Gen8.dest_reg_file 2 n.bits1 = dest.file := hreadFile
      have hreadNr : read Gen8.dest_reg_nr 8 n.bits1 = dest.nr := hreadNr
      have hreadStride : read Gen8.dest_horiz_stride 2 n.bits1 = dstStride dest := hreadStride
      have hzero : get Gen8.dest_address_mode n.bits1 = 0 ↔ dest.address_mode = 0 := hzero
      have hsub : read Gen8.dest_indirect_subreg_nr 4 n.bits1 = _ :=
        read_indirect_subreg_nr hnr (k := 4) (by decide)
      have hoffset : read Gen8.dest_indirect_offset 9 n.bits1 = _ :=
        read_indirect_offset hnr hsubnr (k := 4) (by decide)
      have hhigh : read Gen8.dest_indirect_offset_9 1 n.bits1 = 0 := by
        rw [read, Gen8.dest_indirect_offset_9, hpad rfl]
        rfl
      simp only [Version.readDest, Gen8.readDest, hzero, hreadFile, hreadNr, hreadStride, hsub,
        hoffset, hhigh]
      rfl
  rw [hdirect, destOf, DestFits, ← hreadType]
  split
  · simp only [Dest.direct.injEq, hreadSubnr, true_and, and_true]
  · cases v <;> simp only [Dest.indirect.injEq, Spells, true_and, and_true, eq_comm] <;> rfl

end

/-! ### The sources -/

def Version.src0_reg_file : Version → Field
  | gen7 => Gen7.src0_reg_file
  | gen8 => Gen8.src0_reg_file

def Version.src0_reg_type : Version → Field
  | gen7 => Gen7.src0_reg_type
  | gen8 => Gen8.src0_reg_type

/-- Where the files and types of the sources are in `bits1`. -/
def Version.srcArea : Version → Field
  | gen7 => ⟨5, 10⟩
  | gen8 => ⟨9, 6⟩

/-- What an indirect source is given besides its file and type. -/
def indirectFields (v : Version) (reg : GenRegister) : List (Field × BitVec 32) :=
  [(Src.abs, truncate 1 (u32 reg.absolute)), (Src.negate, truncate 1 (u32 reg.negation)),
    (Src.address_mode, truncate 1 (u32 reg.address_mode)),
    (Src.horiz_stride, truncate 2 (u32 reg.hstride)), (Src.width, truncate 3 (u32 reg.width)),
    (Src.vert_stride, truncate 4 (u32 reg.vstride))] ++
  match v with
  | .gen7 => [(Gen7.src0_indirect_subreg_nr, truncate 3 (u32 reg.a0_subnr)),
      (Gen7.src0_indirect_offset, truncate 10 (u32 reg.addr_imm))]
  | .gen8 => [(Gen8.src0_indirect_subreg_nr, truncate 4 (u32 reg.a0_subnr)),
      (Gen8.src0_indirect_offset, truncate 9 (reg.addr_imm.signExtend 32 &&& 0x1ff)),
      (Gen8.src0_indirect_offset_9, truncate 1 ((reg.addr_imm.signExtend 32 &&& 0x02) >>> 9))]

/-- What the words say about the first source. -/
structure Src0Words (v : Version) (curr : GenInstructionState) (reg : GenRegister) (n : Native) :
    Prop where
  file : get v.src0_reg_file n.bits1 = truncate 2
    (u32 (if reg.address_mode = 0 then reg.file else GEN_GENERAL_REGISTER_FILE))
  type : get v.src0_reg_type n.bits1 = truncate v.typeWidth (u32 reg.type)
  direct : reg.address_mode = 0 → reg.file ≠ GEN_IMMEDIATE_VALUE →
    Holds (srcFields curr reg) n.bits2
  indirect : reg.address_mode ≠ 0 → Holds (indirectFields v reg) n.bits2
  immediate : reg.address_mode = 0 → reg.file = GEN_IMMEDIATE_VALUE →
    if v = .gen8 ∧ Gen8.isLong reg.type then n.bits3 ++ n.bits2 = reg.value else n.bits3 = reg.ud

/-- An offset that has no bit 9, in the two fields of Gen8. -/
def AddressFits : Version → GenRegister → Prop
  | .gen7, reg => reg.a0_subnr.toNat < 8
  | .gen8, reg => 0 ≤ reg.addr_imm.toInt

instance : (v : Version) → (reg : GenRegister) → Decidable (AddressFits v reg)
  | .gen7, reg => inferInstanceAs (Decidable (reg.a0_subnr.toNat < 8))
  | .gen8, reg => inferInstanceAs (Decidable (0 ≤ reg.addr_imm.toInt))

def Src0Fits (v : Version) (reg : GenRegister) : Prop :=
  TypeFits v reg.type ∧
    if reg.address_mode = 0 then reg.file = GEN_IMMEDIATE_VALUE ∨ reg.subnr.toNat < 32
    else reg.file = GEN_GENERAL_REGISTER_FILE ∧ AddressFits v reg

instance (v : Version) (reg : GenRegister) : Decidable (Src0Fits v reg) :=
  inferInstanceAs (Decidable (TypeFits v reg.type ∧
    if reg.address_mode = 0 then reg.file = GEN_IMMEDIATE_VALUE ∨ reg.subnr.toNat < 32
    else reg.file = GEN_GENERAL_REGISTER_FILE ∧ AddressFits v reg))

def Src1Fits (v : Version) (reg : GenRegister) : Prop :=
  TypeFits v reg.type ∧ (reg.file = GEN_IMMEDIATE_VALUE ∨ reg.subnr.toNat < 32)

instance (v : Version) (reg : GenRegister) : Decidable (Src1Fits v reg) :=
  inferInstanceAs (Decidable (_ ∧ _))

section

variable {v : Version} {curr : GenInstructionState} {insn n : Native} {reg : GenRegister}
  {file : BitVec 2} {type : BitVec 4} {word : BitVec 32}

theorem operandOf_direct (hfile : reg.file ≠ GEN_IMMEDIATE_VALUE) (hmode : reg.address_mode = 0) :
    operandOf curr reg = .direct reg.file reg.type reg.nr reg.subnr
      ((truncate 4 (region curr reg).2.2).setWidth 4)
      ((truncate 3 (region curr reg).2.1).setWidth 3)
      ((truncate 2 (region curr reg).1).setWidth 2) reg.negation reg.absolute := by
  rw [operandOf, if_neg hfile, if_pos hmode, region]
  by_cases hscalar : reg.width = 0 ∧ curr.execWidth = 1
  · rw [if_pos hscalar, if_pos hscalar.symm]
    rfl
  · rw [if_neg hscalar, if_neg fun h => hscalar h.symm]
    simp only [setWidth_truncate _ le_rfl (show 2 ≤ 32 by decide),
      setWidth_truncate _ le_rfl (show 3 ≤ 32 by decide),
      setWidth_truncate _ le_rfl (show 4 ≤ 32 by decide)]

theorem readDirect_iff (h : Holds (srcFields curr reg) word)
    (hfile : reg.file ≠ GEN_IMMEDIATE_VALUE) (hmode : reg.address_mode = 0) :
    readDirect file type word = operandOf curr reg ↔
      file = reg.file ∧ type = reg.type ∧ reg.subnr.toNat < 32 := by
  simp only [srcFields, holds_cons] at h
  obtain ⟨hsubnr, hnr, habs, hneg, -, hhstride, hwidth, hvstride, -⟩ := h
  have hreadNr : read Src.reg_nr 8 word = reg.nr := by
    rw [read, hnr, setWidth_truncate _ le_rfl (by decide)]
  have hreadSubnr : read Src.subreg_nr 8 word = reg.subnr ↔ reg.subnr.toNat < 32 := by
    rw [read, hsubnr]
    exact setWidth_truncate_eq_iff _ (by decide) (by decide)
  have hreadAbs : read Src.abs 1 word = reg.absolute := by
    rw [read, habs, setWidth_truncate _ le_rfl (by decide)]
  have hreadNeg : read Src.negate 1 word = reg.negation := by
    rw [read, hneg, setWidth_truncate _ le_rfl (by decide)]
  have hregion : read Src.horiz_stride 2 word = (truncate 2 (region curr reg).1).setWidth 2 ∧
      read Src.width 3 word = (truncate 3 (region curr reg).2.1).setWidth 3 ∧
      read Src.vert_stride 4 word = (truncate 4 (region curr reg).2.2).setWidth 4 := by
    rw [read, read, read, hhstride, hwidth, hvstride]
    exact ⟨rfl, rfl, rfl⟩
  rw [operandOf_direct hfile hmode, readDirect, hreadNr, hreadAbs, hreadNeg, hregion.1, hregion.2.1,
    hregion.2.2]
  simp only [Operand.direct.injEq, hreadSubnr, true_and, and_true]

/-- The two fields of the offset. -/
theorem offset_iff (addr : BitVec 10) :
    (truncate 1 ((addr.signExtend 32 &&& 0x02) >>> 9)).setWidth 1 ++
      (truncate 9 (addr.signExtend 32 &&& 0x1ff)).setWidth 9 = addr ↔ 0 ≤ addr.toInt := by
  revert addr
  decide +kernel

/-- What comes back of an indirect source. -/
theorem indirect_iff (h : Holds (indirectFields v reg) n.bits2)
    (hfile : get v.src0_reg_file n.bits1 = truncate 2 (u32 GEN_GENERAL_REGISTER_FILE))
    (hmode : reg.address_mode ≠ 0) (hreg : reg.file ≠ GEN_IMMEDIATE_VALUE) :
    v.readSrc0 n = operandOf curr reg ↔ read v.src0_reg_type 4 n.bits1 = reg.type ∧
      reg.file = GEN_GENERAL_REGISTER_FILE ∧ AddressFits v reg := by
  simp only [indirectFields, List.cons_append, List.nil_append, holds_cons] at h
  obtain ⟨habs, hneg, hmodeBit, hhstride, hwidth, hvstride, haddress⟩ := h
  have hreadFile : read v.src0_reg_file 2 n.bits1 = GEN_GENERAL_REGISTER_FILE := by
    rw [read, hfile]
    exact setWidth_truncate _ le_rfl (by decide)
  have hnot : get Src.address_mode n.bits2 ≠ 0 := by
    rw [hmodeBit]
    exact mt (bit_eq_zero_iff _).mp hmode
  have hreadAbs : read Src.abs 1 n.bits2 = reg.absolute := by
    rw [read, habs, setWidth_truncate _ le_rfl (by decide)]
  have hreadNeg : read Src.negate 1 n.bits2 = reg.negation := by
    rw [read, hneg, setWidth_truncate _ le_rfl (by decide)]
  have hreadH : read Src.horiz_stride 2 n.bits2 = reg.hstride := by
    rw [read, hhstride, setWidth_truncate _ le_rfl (by decide)]
  have hreadW : read Src.width 3 n.bits2 = reg.width := by
    rw [read, hwidth, setWidth_truncate _ le_rfl (by decide)]
  have hreadV : read Src.vert_stride 4 n.bits2 = reg.vstride := by
    rw [read, hvstride, setWidth_truncate _ le_rfl (by decide)]
  rw [operandOf, if_neg hreg, if_neg hmode]
  cases v with
  | gen7 =>
    simp only [holds_cons] at haddress
    have hreadFile : read Gen7.src0_reg_file 2 n.bits1 = GEN_GENERAL_REGISTER_FILE := hreadFile
    have hsub : read Gen7.src0_indirect_subreg_nr 4 n.bits2 = reg.a0_subnr ↔
        reg.a0_subnr.toNat < 8 := by
      rw [read, haddress.1]
      exact setWidth_truncate_eq_iff _ (by decide) (by decide)
    have hoffset : read Gen7.src0_indirect_offset 10 n.bits2 = reg.addr_imm := by
      rw [read, haddress.2.1]
      exact setWidth_truncate _ le_rfl (by decide)
    have hread : Gen7.readSrc0 n = .indirect GEN_GENERAL_REGISTER_FILE
        (read Gen7.src0_reg_type 4 n.bits1) (read Gen7.src0_indirect_subreg_nr 4 n.bits2)
        reg.addr_imm reg.vstride reg.width reg.hstride reg.negation reg.absolute := by
      rw [Gen7.readSrc0, hreadFile, if_neg (by decide), if_neg hnot, readIndirect, hoffset, hreadV,
        hreadW, hreadH, hreadNeg, hreadAbs]
    show Gen7.readSrc0 n = _ ↔ _
    rw [hread]
    simp only [Operand.indirect.injEq, hsub, and_true, AddressFits, Version.src0_reg_type,
      eq_comm (a := GEN_GENERAL_REGISTER_FILE)]
    tauto
  | gen8 =>
    simp only [holds_cons] at haddress
    have hreadFile : read Gen8.src0_reg_file 2 n.bits1 = GEN_GENERAL_REGISTER_FILE := hreadFile
    have hsub : read Gen8.src0_indirect_subreg_nr 4 n.bits2 = reg.a0_subnr := by
      rw [read, haddress.1]
      exact setWidth_truncate _ le_rfl (by decide)
    have hoffset : read Gen8.src0_indirect_offset_9 1 n.bits2 ++
        read Gen8.src0_indirect_offset 9 n.bits2 = reg.addr_imm ↔ 0 ≤ reg.addr_imm.toInt := by
      rw [read, read, haddress.2.1, haddress.2.2.1]
      exact offset_iff _
    have hread : Gen8.readSrc0 n = .indirect GEN_GENERAL_REGISTER_FILE
        (read Gen8.src0_reg_type 4 n.bits1) reg.a0_subnr
        (read Gen8.src0_indirect_offset_9 1 n.bits2 ++ read Gen8.src0_indirect_offset 9 n.bits2)
        reg.vstride reg.width reg.hstride reg.negation reg.absolute := by
      rw [Gen8.readSrc0, hreadFile, if_neg (by decide), if_neg hnot, readIndirect, hsub, hreadV,
        hreadW, hreadH, hreadNeg, hreadAbs]
    show Gen8.readSrc0 n = _ ↔ _
    rw [hread]
    simp only [Operand.indirect.injEq, hoffset, true_and, and_true, AddressFits,
      Version.src0_reg_type, eq_comm (a := GEN_GENERAL_REGISTER_FILE)]
    tauto

theorem readSrc0_ne_immediate
    (hfile : get v.src0_reg_file n.bits1 = truncate 2 (u32 GEN_GENERAL_REGISTER_FILE))
    (h : Holds (indirectFields v reg) n.bits2) (hmode : reg.address_mode ≠ 0) (type : BitVec 4)
    (value : BitVec 64) : v.readSrc0 n ≠ .immediate type value := by
  have hreadFile : read v.src0_reg_file 2 n.bits1 = GEN_GENERAL_REGISTER_FILE := by
    rw [read, hfile]
    exact setWidth_truncate _ le_rfl (by decide)
  have hnot : get Src.address_mode n.bits2 ≠ 0 := by
    rw [h (Src.address_mode, truncate 1 (u32 reg.address_mode)) (by simp [indirectFields])]
    exact mt (bit_eq_zero_iff _).mp hmode
  cases v with
  | gen7 =>
    have hreadFile : read Gen7.src0_reg_file 2 n.bits1 = GEN_GENERAL_REGISTER_FILE := hreadFile
    show Gen7.readSrc0 n ≠ _
    rw [Gen7.readSrc0, hreadFile, if_neg (by decide), if_neg hnot]
    exact Operand.noConfusion
  | gen8 =>
    have hreadFile : read Gen8.src0_reg_file 2 n.bits1 = GEN_GENERAL_REGISTER_FILE := hreadFile
    show Gen8.readSrc0 n ≠ _
    rw [Gen8.readSrc0, hreadFile, if_neg (by decide), if_neg hnot]
    exact Operand.noConfusion

/-- The types of 64 bits are not among those of Gen7. -/
theorem short_of_fits (h : TypeFits .gen7 type) : ¬ Gen8.isLong type := by
  intro hlong
  have hfits : type.toNat < 8 := h
  rcases hlong with h | h | h <;> rw [h] at hfits <;> exact absurd hfits (by decide)

/-- What comes back of an immediate. -/
theorem immediate_iff (hfile : read v.src0_reg_file 2 n.bits1 = reg.file)
    (htype : read v.src0_reg_type 4 n.bits1 = reg.type ↔ TypeFits v reg.type)
    (himm : reg.file = GEN_IMMEDIATE_VALUE)
    (hvalue : if v = .gen8 ∧ Gen8.isLong reg.type then n.bits3 ++ n.bits2 = reg.value
      else n.bits3 = reg.ud) :
    v.readSrc0 n = operandOf curr reg ↔ TypeFits v reg.type := by
  rw [operandOf, if_pos himm]
  cases v with
  | gen7 =>
    have hfile : read Gen7.src0_reg_file 2 n.bits1 = reg.file := hfile
    rw [if_neg fun h => absurd h.1 (by decide)] at hvalue
    show Gen7.readSrc0 n = _ ↔ _
    rw [Gen7.readSrc0, hfile, if_pos himm, Operand.immediate.injEq, hvalue]
    constructor
    · exact fun h => htype.mp h.1
    · intro hfits
      rw [if_neg (short_of_fits hfits)]
      exact ⟨htype.mpr hfits, rfl⟩
  | gen8 =>
    have hfile : read Gen8.src0_reg_file 2 n.bits1 = reg.file := hfile
    have htype : read Gen8.src0_reg_type 4 n.bits1 = reg.type := htype.mpr trivial
    show Gen8.readSrc0 n = _ ↔ _
    rw [Gen8.readSrc0, hfile, if_pos himm, htype]
    refine iff_of_true ?_ trivial
    by_cases hlong : Gen8.isLong reg.type
    · rw [if_pos ⟨rfl, hlong⟩] at hvalue
      rw [if_pos hlong, if_pos hlong, hvalue]
    · rw [if_neg fun h => hlong h.2] at hvalue
      rw [if_neg hlong, if_neg hlong, hvalue]

theorem readSrc0_iff (h : Src0Words v curr reg n) :
    v.readSrc0 n = operandOf curr reg ↔ Src0Fits v reg := by
  have htype : read v.src0_reg_type 4 n.bits1 = reg.type ↔ TypeFits v reg.type :=
    read_type_iff (by cases v <;> rfl) (h.type.trans (by cases v <;> rfl))
  rw [Src0Fits, ← htype]
  by_cases hmode : reg.address_mode = 0
  · have hfile := h.file
    rw [if_pos hmode] at hfile ⊢
    have hreadFile : read v.src0_reg_file 2 n.bits1 = reg.file := by
      rw [read, hfile]
      exact setWidth_truncate _ le_rfl (by decide)
    by_cases himm : reg.file = GEN_IMMEDIATE_VALUE
    · rw [immediate_iff hreadFile htype himm (h.immediate hmode himm), htype]
      exact (and_iff_left (Or.inl himm)).symm
    · have hwords := h.direct hmode himm
      have hbit : get Src.address_mode n.bits2 = 0 :=
        hwords (Src.address_mode, 0) (by simp [srcFields])
      have hread : v.readSrc0 n =
          readDirect reg.file (read v.src0_reg_type 4 n.bits1) n.bits2 := by
        cases v with
        | gen7 =>
          have hreadFile : read Gen7.src0_reg_file 2 n.bits1 = reg.file := hreadFile
          show Gen7.readSrc0 n = _
          rw [Gen7.readSrc0, hreadFile, if_neg himm, if_pos hbit]
          rfl
        | gen8 =>
          have hreadFile : read Gen8.src0_reg_file 2 n.bits1 = reg.file := hreadFile
          show Gen8.readSrc0 n = _
          rw [Gen8.readSrc0, hreadFile, if_neg himm, if_pos hbit]
          rfl
      rw [hread, readDirect_iff hwords himm hmode]
      simp only [himm, true_and, false_or]
  · have hfile := h.file
    rw [if_neg hmode] at hfile ⊢
    by_cases himm : reg.file = GEN_IMMEDIATE_VALUE
    · -- an address is not an immediate
      refine iff_of_false (fun heq => ?_) fun hfits => ?_
      · rw [operandOf, if_pos himm] at heq
        exact readSrc0_ne_immediate hfile (h.indirect hmode) hmode _ _ heq
      · exact absurd (himm.symm.trans hfits.2.1) (by decide)
    · exact indirect_iff (h.indirect hmode) hfile hmode himm

end

end Compact
