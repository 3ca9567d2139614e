/-
Immediate operands (`Selection::Opaque::getSrcGenRegImm` of `gen_insn_selection.cpp`) of the
instructions on integers of 8, 16 and 32 bits.

A constant comes as a `LOADI` of the block, whose immediate is unsigned
(`processConstantImmIndexImpl` of `llvm_gen_backend.cpp`).  A right constant is encoded as it
is; a left one if the operands can change places.  `BinaryInstructionPattern::emit` subtracts by
adding the negated source, and a negated immediate wraps in its own type; a compare whose operands
change places takes the negation of its condition, where the mirror image is meant.

The sources of an instruction have exact values, which it adds or compares; the result is then
wrapped or clamped to the type of the destination.

* `value_fromImmediate` — an encoded immediate has the value of the constant.
* **`immediate_fold_exact_iff`** — for which operations, sides and constants the selected
  instruction is exact.
-/
import Mathlib

namespace Backend

namespace ImmediateFold

/-! ### Types and values -/

inductive IntType where
  | S8 | U8 | S16 | U16 | S32 | U32

namespace IntType

def bits : IntType → ℕ
  | S8 | U8 => 8
  | S16 | U16 => 16
  | S32 | U32 => 32

def signed : IntType → Bool
  | S8 | S16 | S32 => true
  | U8 | U16 | U32 => false

/-- The number that a register of the type holds. -/
def val (t : IntType) (x : BitVec t.bits) : ℤ := if t.signed then x.toInt else x.toNat

/-- The width of an immediate of the type. -/
def encodedBits : IntType → ℕ
  | S8 | U8 | S16 | U16 => 16
  | S32 | U32 => 32

def lo (t : IntType) : ℤ := if t.signed then -2 ^ (t.bits - 1) else 0

def hi (t : IntType) : ℤ := if t.signed then 2 ^ (t.bits - 1) - 1 else 2 ^ t.bits - 1

def saturate (t : IntType) (v : ℤ) : ℤ := max t.lo (min t.hi v)

end IntType

inductive GenType where
  | UD | D | UW | W

/-- A source of a Gen instruction, with its value. -/
inductive GenRegister where
  | reg (value : ℤ) (negation : Bool)
  | imm (type : GenType) (value : ℤ)

namespace GenRegister

def immud (v : ℤ) : GenRegister := .imm .UD (v % 2 ^ 32)

def immd (v : ℤ) : GenRegister := .imm .D (v.bmod (2 ^ 32))

def immuw (v : ℤ) : GenRegister := .imm .UW (v % 2 ^ 16)

def immw (v : ℤ) : GenRegister := .imm .W (v.bmod (2 ^ 16))

def negate : GenRegister → GenRegister
  | reg value negation => reg value !negation
  | imm .UD value => immud (-value)
  | imm .D value => immd (-value)
  | imm .UW value => immuw (-value)
  | imm .W value => immw (-value)

/-- The value that is added or compared. -/
def value : GenRegister → ℤ
  | reg v negation => if negation then -v else v
  | imm _ v => v

end GenRegister

/-! ### Operations -/

inductive Cond where
  | LE | LT | GE | GT | EQ | NE
  deriving DecidableEq

def Cond.holds (a b : ℤ) : Cond → Bool
  | LE => a ≤ b
  | LT => a < b
  | GE => b ≤ a
  | GT => b < a
  | EQ => a = b
  | NE => a ≠ b

/-- An IR instruction on two operands; `sel` is a select by the compare of its own operands. -/
inductive Op where
  | ADD | SUB | ADDSAT | SUBSAT | AND | OR | XOR | SHL | SHR | ASR
  | cmp (cond : Cond)
  | sel (cond : Cond)
  deriving DecidableEq

def Op.commutes : Op → Bool
  | ADD | ADDSAT | XOR | OR | AND => true
  | _ => false

def Op.isBinary : Op → Bool
  | cmp _ | sel _ => false
  | _ => true

/-- What an instruction leaves: the bits of a register, or a flag. -/
inductive Result (w : ℕ) where
  | value (v : BitVec w)
  | flag (b : Bool)
  deriving DecidableEq

inductive Bitwise where
  | AND | OR | XOR

inductive Shift where
  | SHL | SHR | ASR

/-- A shift in a dword, by the low five bits of the count. -/
def Shift.eval (v count : ℤ) : Shift → BitVec 32
  | SHL => BitVec.ofInt 32 v <<< (count % 32).toNat
  | SHR => BitVec.ofInt 32 v >>> (count % 32).toNat
  | ASR => (BitVec.ofInt 32 v).sshiftRight (count % 32).toNat

def Bitwise.eval {w : ℕ} (x y : BitVec w) : Bitwise → BitVec w
  | AND => x &&& y
  | OR => x ||| y
  | XOR => x ^^^ y

/-- The meaning of an IR instruction. -/
def Op.eval (t : IntType) (x y : BitVec t.bits) : Op → Result t.bits
  | ADD => .value (x + y)
  | SUB => .value (x - y)
  | ADDSAT => .value (BitVec.ofInt _ (t.saturate (t.val x + t.val y)))
  | SUBSAT => .value (BitVec.ofInt _ (t.saturate (t.val x - t.val y)))
  | AND => .value (Bitwise.AND.eval x y)
  | OR => .value (Bitwise.OR.eval x y)
  | XOR => .value (Bitwise.XOR.eval x y)
  | SHL => .value ((Shift.SHL.eval (t.val x) (t.val y)).setWidth _)
  | SHR => .value ((Shift.SHR.eval (t.val x) (t.val y)).setWidth _)
  | ASR => .value ((Shift.ASR.eval (t.val x) (t.val y)).setWidth _)
  | cmp cond => .flag (cond.holds (t.val x) (t.val y))
  | sel cond => .value (if cond.holds (t.val x) (t.val y) then x else y)

/-! ### Selection -/

/-- A source of an IR instruction: a register, or the `LOADI` of a constant. -/
inductive Operand (w : ℕ) where
  | reg (x : BitVec w)
  | loadi (c : BitVec w)

def Operand.bits {w : ℕ} : Operand w → BitVec w
  | reg x => x
  | loadi c => c

section

variable (t : IntType)

def selReg (src : Operand t.bits) : GenRegister := .reg (t.val src.bits) false

/-- The immediate's own value is `c.toNat`; the casts to `int16_t` and `int8_t` come before the
sign. -/
def getRegisterFromImmediate (c : BitVec t.bits) (negate : Bool) : GenRegister :=
  let sign : ℤ := if negate then -1 else 1
  match t with
  | .U32 => .immud (c.toNat * sign)
  | .S32 => .immd (c.toNat * sign)
  | .U16 => .immuw (c.toNat * sign)
  | .S16 => .immw ((c.toNat : ℤ).bmod (2 ^ 16) * sign)
  | .U8 => .immuw (c.toNat * sign)
  | .S8 => .immw ((c.toNat : ℤ).bmod (2 ^ 8) * sign)

/-- The two sources, and whether a compare has to be inverted. -/
def getSrcGenRegImm (op : Op) (src0 src1 : Operand t.bits) : GenRegister × GenRegister × Bool :=
  match src0, src1 with
  | src0, .loadi c => (selReg t src0, getRegisterFromImmediate t c false, false)
  | .loadi c, .reg x =>
    if op.isBinary ∧ (op.commutes ∨ op = .SUB) then
      (if op = .SUB then .negate (selReg t (.reg x)) else selReg t (.reg x),
        getRegisterFromImmediate t c (op = .SUB), false)
    else if op.isBinary then (selReg t (.loadi c), selReg t (.reg x), false)
    else (selReg t (.reg x), getRegisterFromImmediate t c false, true)
  | .reg y, .reg x => (selReg t (.reg y), selReg t (.reg x), false)

def getGenCompare (inverse : Bool) : Cond → Cond
  | .LE => if !inverse then .LE else .GT
  | .LT => if !inverse then .LT else .GE
  | .GE => if !inverse then .GE else .LT
  | .GT => if !inverse then .GT else .LE
  | .EQ => if !inverse then .EQ else .NE
  | .NE => if !inverse then .NE else .EQ

inductive GenOp where
  | ADD (saturate : Bool)
  | bitwise (op : Bitwise)
  | shift (op : Shift)
  | CMP (cond : Cond)
  | SEL_CMP (cond : Cond)

structure GenInsn where
  op : GenOp
  src0 : GenRegister
  src1 : GenRegister

/-- `BinaryInstructionPattern`, `CompareInstructionPattern` and `SelectModifierInstructionPattern`,
once the sources are known. -/
def emitWith (op : Op) (src0 src1 : GenRegister) (inverse : Bool) : GenInsn :=
  match op with
  | .ADD => ⟨.ADD false, src0, src1⟩
  | .ADDSAT => ⟨.ADD true, src0, src1⟩
  | .SUB => ⟨.ADD false, src0, .negate src1⟩
  | .SUBSAT => ⟨.ADD true, src0, .negate src1⟩
  | .AND => ⟨.bitwise .AND, src0, src1⟩
  | .OR => ⟨.bitwise .OR, src0, src1⟩
  | .XOR => ⟨.bitwise .XOR, src0, src1⟩
  | .SHL => ⟨.shift .SHL, src0, src1⟩
  | .SHR => ⟨.shift .SHR, src0, src1⟩
  | .ASR => ⟨.shift .ASR, src0, src1⟩
  | .cmp cond => ⟨.CMP (getGenCompare inverse cond), src0, src1⟩
  | .sel cond => ⟨.SEL_CMP (getGenCompare inverse cond), src0, src1⟩

def emit (op : Op) (src0 src1 : Operand t.bits) : GenInsn :=
  let (src0, src1, inverse) := getSrcGenRegImm t op src0 src1
  emitWith op src0 src1 inverse

/-- The instruction on the values of its sources, with a destination of type `t`. -/
def GenInsn.eval (i : GenInsn) : Result t.bits :=
  let v0 := i.src0.value
  let v1 := i.src1.value
  match i.op with
  | .ADD true => .value (BitVec.ofInt _ (t.saturate (v0 + v1)))
  | .ADD false => .value (BitVec.ofInt _ (v0 + v1))
  | .bitwise op => .value ((op.eval (BitVec.ofInt 32 v0) (BitVec.ofInt 32 v1)).setWidth _)
  | .shift op => .value ((op.eval v0 v1).setWidth _)
  | .CMP cond => .flag (cond.holds v0 v1)
  | .SEL_CMP cond => .value (BitVec.ofInt _ (if cond.holds v0 v1 then v0 else v1))

/-! ### Values of immediates -/

variable {t}

theorem ofInt_emod {w n : ℕ} (h : w ≤ n) (v : ℤ) :
    BitVec.ofInt w (v % 2 ^ n) = BitVec.ofInt w v := by
  refine BitVec.eq_of_toInt_eq ?_
  rw [BitVec.toInt_ofInt, BitVec.toInt_ofInt]
  have hdvd : ((2 ^ w : ℕ) : ℤ) ∣ 2 ^ n := by
    push_cast
    exact pow_dvd_pow 2 h
  rw [← Int.emod_bmod, Int.emod_emod_of_dvd v hdvd, Int.emod_bmod]

theorem ofInt_bmod {w n : ℕ} (h : w ≤ n) (v : ℤ) :
    BitVec.ofInt w (v.bmod (2 ^ n)) = BitVec.ofInt w v := by
  have hmod : (v.bmod (2 ^ n)) % 2 ^ n = v % 2 ^ n := by
    have := @Int.bmod_emod v (2 ^ n)
    push_cast at this
    exact this
  rw [← ofInt_emod h, hmod, ofInt_emod h]

theorem ofInt_val (x : BitVec t.bits) : BitVec.ofInt t.bits (t.val x) = x := by
  unfold IntType.val
  split
  · exact BitVec.ofInt_toInt
  · rw [BitVec.ofInt_natCast, BitVec.ofNat_toNat, BitVec.setWidth_eq]

theorem val_mem (x : BitVec t.bits) : t.lo ≤ t.val x ∧ t.val x ≤ t.hi := by
  have hlt := x.isLt
  have hlo := BitVec.le_toInt x
  have hhi := BitVec.toInt_lt (x := x)
  cases t <;> simp only [IntType.lo, IntType.hi, IntType.val, IntType.signed, IntType.bits, if_true,
    Bool.false_eq_true, if_false] at * <;> omega

/-- The values of the six types, from the bits as a number. -/
theorem val_eq (c : BitVec t.bits) :
    t.val c = if t.signed then (c.toNat : ℤ).bmod (2 ^ t.bits) else (c.toNat : ℤ) := by
  unfold IntType.val
  split
  · rw [BitVec.toInt_eq_toNat_bmod]
  · rfl

/-- An encoded immediate has the value of the constant. -/
theorem value_fromImmediate (c : BitVec t.bits) :
    (getRegisterFromImmediate t c false).value = t.val c := by
  rw [val_eq]
  have hlt := c.isLt
  cases t with
  | U32 =>
    have h : c.toNat < 2 ^ 32 := hlt
    simp only [getRegisterFromImmediate, GenRegister.immud, GenRegister.value, IntType.signed,
      Bool.false_eq_true, if_false, mul_one]
    omega
  | S32 =>
    simp only [getRegisterFromImmediate, GenRegister.immd, GenRegister.value, IntType.signed,
      Bool.false_eq_true, if_false, if_true, mul_one, IntType.bits]
  | U16 =>
    have h : c.toNat < 2 ^ 16 := hlt
    simp only [getRegisterFromImmediate, GenRegister.immuw, GenRegister.value, IntType.signed,
      Bool.false_eq_true, if_false, mul_one]
    omega
  | S16 =>
    simp only [getRegisterFromImmediate, GenRegister.immw, GenRegister.value, IntType.signed,
      Bool.false_eq_true, if_false, if_true, mul_one, IntType.bits, Int.bmod_bmod]
  | U8 =>
    have h : c.toNat < 2 ^ 8 := hlt
    simp only [getRegisterFromImmediate, GenRegister.immuw, GenRegister.value, IntType.signed,
      Bool.false_eq_true, if_false, mul_one]
    omega
  | S8 =>
    -- a value of 8 bits is not changed by the wider type of the immediate
    simp only [getRegisterFromImmediate, GenRegister.immw, GenRegister.value, IntType.signed,
      Bool.false_eq_true, if_false, if_true, mul_one, IntType.bits, Int.bmod_def]
    omega

/-- The width of a source, at least that of the type. -/
def GenRegister.Covers (w : ℕ) : GenRegister → Prop
  | .reg _ _ => True
  | .imm .UD _ | .imm .D _ => w ≤ 32
  | .imm .UW _ | .imm .W _ => w ≤ 16

theorem covers_fromImmediate (c : BitVec t.bits) (negate : Bool) :
    (getRegisterFromImmediate t c negate).Covers t.bits := by
  cases t <;> simp [getRegisterFromImmediate, GenRegister.immud, GenRegister.immd,
    GenRegister.immuw, GenRegister.immw, GenRegister.Covers, IntType.bits]

/-- Negating a source negates its value, modulo the width. -/
theorem ofInt_negate {w : ℕ} {r : GenRegister} (h : r.Covers w) :
    BitVec.ofInt w r.negate.value = -BitVec.ofInt w r.value := by
  rw [← BitVec.ofInt_neg]
  match r, h with
  | .reg v true, _ =>
    show BitVec.ofInt w v = BitVec.ofInt w (- -v)
    rw [neg_neg]
  | .reg v false, _ => rfl
  | .imm .UD v, h => exact ofInt_emod h (-v)
  | .imm .D v, h => exact ofInt_bmod h (-v)
  | .imm .UW v, h => exact ofInt_emod h (-v)
  | .imm .W v, h => exact ofInt_bmod h (-v)

/-- An immediate that is negated when it is encoded. -/
theorem ofInt_fromImmediate_neg (c : BitVec t.bits) :
    BitVec.ofInt t.bits (getRegisterFromImmediate t c true).value = -c := by
  have hneg : ∀ v : ℤ, BitVec.ofInt t.bits v = c → BitVec.ofInt t.bits (v * -1) = -c := by
    intro v hv
    rw [mul_neg_one, BitVec.ofInt_neg, hv]
  have hnat : BitVec.ofInt t.bits (c.toNat : ℤ) = c := by
    rw [BitVec.ofInt_natCast, BitVec.ofNat_toNat, BitVec.setWidth_eq]
  cases t <;> simp only [getRegisterFromImmediate, GenRegister.immud, GenRegister.immd,
    GenRegister.immuw, GenRegister.immw, GenRegister.value, if_true, IntType.bits] at hneg hnat ⊢
  case U32 => exact (ofInt_emod le_rfl _).trans (hneg _ hnat)
  case S32 => exact (ofInt_bmod le_rfl _).trans (hneg _ hnat)
  case U16 => exact (ofInt_emod le_rfl _).trans (hneg _ hnat)
  case S16 => exact (ofInt_bmod le_rfl _).trans (hneg _ ((ofInt_bmod le_rfl _).trans hnat))
  case U8 => exact (ofInt_emod (by omega) _).trans (hneg _ hnat)
  case S8 => exact (ofInt_bmod (by omega) _).trans (hneg _ ((ofInt_bmod le_rfl _).trans hnat))

/-- A value in range is the value of its bits. -/
theorem val_ofInt {v : ℤ} (hlo : t.lo ≤ v) (hhi : v ≤ t.hi) :
    t.val (BitVec.ofInt t.bits v) = v := by
  rw [val_eq, BitVec.toNat_ofInt]
  cases t <;> simp only [IntType.lo, IntType.hi, IntType.signed, IntType.bits, if_true,
    Bool.false_eq_true, if_false, Int.bmod_def] at * <;> omega

theorem saturate_mem (t : IntType) (v : ℤ) : t.lo ≤ t.saturate v ∧ t.saturate v ≤ t.hi := by
  have hle : t.lo ≤ t.hi := by cases t <;> decide
  unfold IntType.saturate
  omega

theorem ofInt_saturate_inj {v v' : ℤ} :
    BitVec.ofInt t.bits (t.saturate v) = BitVec.ofInt t.bits (t.saturate v') ↔
      t.saturate v = t.saturate v' := by
  constructor
  · intro h
    have hval := congrArg t.val h
    rwa [val_ofInt (saturate_mem t v).1 (saturate_mem t v).2,
      val_ofInt (saturate_mem t v').1 (saturate_mem t v').2] at hval
  · exact congrArg _

theorem val_injective {x y : BitVec t.bits} (h : t.val x = t.val y) : x = y := by
  rw [← ofInt_val x, h, ofInt_val]

/-! ### Saturating subtraction -/

/-- A negated immediate wraps in the type it is encoded with. -/
theorem value_negate_fromImmediate (c : BitVec t.bits) :
    (getRegisterFromImmediate t c false).negate.value =
      if t.signed then (-t.val c).bmod (2 ^ t.encodedBits)
      else (-t.val c) % 2 ^ t.encodedBits := by
  have hv := value_fromImmediate c
  cases t <;> simp only [getRegisterFromImmediate, GenRegister.immud, GenRegister.immd,
    GenRegister.immuw, GenRegister.immw, GenRegister.negate, GenRegister.value, IntType.signed,
    IntType.encodedBits, if_true, Bool.false_eq_true, if_false] at hv ⊢ <;> rw [hv]

/-- The negated immediate is the subtrahend: for an unsigned type only 0, for a signed one all but
the least of those that are encoded in their own width. -/
def SubExact (t : IntType) (c : BitVec t.bits) : Prop :=
  if t.signed then t = .S8 ∨ t.val c ≠ t.lo else t.val c = 0

theorem subsat_exact {c : BitVec t.bits} (h : SubExact t c) :
    (getRegisterFromImmediate t c false).negate.value = -t.val c := by
  have hmem := val_mem c
  rw [value_negate_fromImmediate]
  unfold SubExact at h
  generalize t.val c = v at h hmem
  cases t <;> simp only [IntType.lo, IntType.hi, IntType.signed, IntType.bits,
    IntType.encodedBits, if_true, Bool.false_eq_true, if_false, reduceCtorEq, false_or,
    Int.bmod_def] at * <;> omega

/-- The difference from 0 goes wrong otherwise. -/
theorem subsat_inexact {c : BitVec t.bits} (h : ¬ SubExact t c) :
    t.saturate (0 + (getRegisterFromImmediate t c false).negate.value) ≠
      t.saturate (0 - t.val c) := by
  have hmem := val_mem c
  rw [value_negate_fromImmediate]
  unfold SubExact at h
  generalize t.val c = v at h hmem
  cases t <;> simp only [IntType.saturate, IntType.lo, IntType.hi, IntType.signed, IntType.bits,
    IntType.encodedBits, if_true, Bool.false_eq_true, if_false, reduceCtorEq, false_or, true_or,
    not_true_eq_false, Int.bmod_def] at * <;> omega

/-! ### When the selected instruction is exact -/

/-- The operands of an instruction with the constant on one side. -/
def operands (left : Bool) (c x : BitVec t.bits) : Operand t.bits × Operand t.bits :=
  if left then (.loadi c, .reg x) else (.reg x, .loadi c)

/-- The constant is folded exactly: a compare with a left constant never is, a select by one only
where the order does not matter, and a saturating subtraction only where the negated constant can
be encoded. -/
def Exact (t : IntType) (op : Op) (left : Bool) (c : BitVec t.bits) : Prop :=
  match op, left with
  | .cmp _, true => False
  | .sel cond, true => cond = .EQ ∨ cond = .NE
  | .SUBSAT, false => SubExact t c
  | _, _ => True

/-- An instruction on sources that have the values of the operands. -/
theorem emitWith_exact {op : Op} {r0 r1 : GenRegister} {a b : BitVec t.bits}
    (h0 : r0.value = t.val a) (h1 : r1.value = t.val b) (hcov : r1.Covers t.bits)
    (hsat : op = .SUBSAT → r1.negate.value = -t.val b) :
    (emitWith op r0 r1 false).eval t = op.eval t a b := by
  have hwide : t.bits ≤ 32 := by cases t <;> decide
  have hset : ∀ v, (BitVec.ofInt 32 v).setWidth t.bits = BitVec.ofInt t.bits v := by
    intro v
    refine BitVec.eq_of_toNat_eq ?_
    rw [← ofInt_emod hwide v, BitVec.toNat_setWidth, BitVec.toNat_ofInt, BitVec.toNat_ofInt]
    cases t <;> simp only [IntType.bits] <;> omega
  cases op with
  | ADD => simp only [emitWith, GenInsn.eval, Op.eval, h0, h1, BitVec.ofInt_add, ofInt_val]
  | SUB =>
    simp only [emitWith, GenInsn.eval, Op.eval, h0, BitVec.ofInt_add, ofInt_val,
      ofInt_negate hcov, h1, BitVec.sub_eq_add_neg]
  | ADDSAT => simp only [emitWith, GenInsn.eval, Op.eval, h0, h1]
  | SUBSAT => simp only [emitWith, GenInsn.eval, Op.eval, h0, hsat rfl, sub_eq_add_neg]
  | AND =>
    simp only [emitWith, GenInsn.eval, Op.eval, h0, h1, Bitwise.eval, BitVec.setWidth_and, hset,
      ofInt_val]
  | OR =>
    simp only [emitWith, GenInsn.eval, Op.eval, h0, h1, Bitwise.eval, BitVec.setWidth_or, hset,
      ofInt_val]
  | XOR =>
    simp only [emitWith, GenInsn.eval, Op.eval, h0, h1, Bitwise.eval, BitVec.setWidth_xor, hset,
      ofInt_val]
  | SHL => simp only [emitWith, GenInsn.eval, Op.eval, h0, h1]
  | SHR => simp only [emitWith, GenInsn.eval, Op.eval, h0, h1]
  | ASR => simp only [emitWith, GenInsn.eval, Op.eval, h0, h1]
  | cmp cond =>
    have hcond : getGenCompare false cond = cond := by cases cond <;> rfl
    simp only [emitWith, GenInsn.eval, Op.eval, hcond, h0, h1]
  | sel cond =>
    have hcond : getGenCompare false cond = cond := by cases cond <;> rfl
    simp only [emitWith, GenInsn.eval, Op.eval, hcond, h0, h1]
    split
    · rw [ofInt_val]
    · rw [ofInt_val]

/-! ### A constant on the right -/

theorem emit_right (op : Op) (c x : BitVec t.bits) :
    emit t op (.reg x) (.loadi c) =
      emitWith op (.reg (t.val x) false) (getRegisterFromImmediate t c false) false := rfl

theorem right_exact {op : Op} {c : BitVec t.bits} (h : Exact t op false c) (x : BitVec t.bits) :
    (emit t op (.reg x) (.loadi c)).eval t = op.eval t x c := by
  rw [emit_right]
  refine emitWith_exact rfl (value_fromImmediate c) (covers_fromImmediate c false) ?_
  rintro rfl
  exact subsat_exact h

theorem right_inexact {op : Op} {c : BitVec t.bits} (h : ¬ Exact t op false c) :
    ∃ x, (emit t op (.reg x) (.loadi c)).eval t ≠ op.eval t x c := by
  have hop : op = .SUBSAT := by
    by_contra hne
    cases op <;> first | exact hne rfl | exact h trivial
  subst hop
  refine ⟨0, fun heq => subsat_inexact h ?_⟩
  have hzero : t.val 0 = 0 := by cases t <;> rfl
  rw [emit_right] at heq
  simp only [emitWith, GenInsn.eval, Op.eval, GenRegister.value, Bool.false_eq_true, if_false,
    hzero, Result.value.injEq, ofInt_saturate_inj] at heq
  exact heq

/-! ### A constant on the left -/

theorem eval_comm {op : Op} (h : op.commutes = true) (x c : BitVec t.bits) :
    op.eval t x c = op.eval t c x := by
  cases op with
  | ADD => simp only [Op.eval, BitVec.add_comm]
  | ADDSAT => simp only [Op.eval, add_comm]
  | AND => simp only [Op.eval, Bitwise.eval, BitVec.and_comm]
  | OR => simp only [Op.eval, Bitwise.eval, BitVec.or_comm]
  | XOR => simp only [Op.eval, Bitwise.eval, BitVec.xor_comm]
  | _ => simp [Op.commutes] at h

/-- A subtraction from a constant is the sum of two negations. -/
theorem left_sub (c x : BitVec t.bits) :
    (emit t .SUB (.loadi c) (.reg x)).eval t = Op.SUB.eval t c x := by
  show Result.value (BitVec.ofInt _ (-t.val x + (getRegisterFromImmediate t c true).negate.value)) =
    .value (c - x)
  rw [BitVec.ofInt_add, BitVec.ofInt_neg, ofInt_val, ofInt_negate (covers_fromImmediate c true),
    ofInt_fromImmediate_neg, BitVec.neg_neg, BitVec.sub_eq_add_neg, BitVec.add_comm]

/-- The operands of a select that change places, by the negation of the condition. -/
theorem left_sel (cond : Cond) (c x : BitVec t.bits) :
    (emit t (.sel cond) (.loadi c) (.reg x)).eval t =
      .value (if (getGenCompare true cond).holds (t.val x) (t.val c) then x else c) := by
  show Result.value (BitVec.ofInt _ (if (getGenCompare true cond).holds (t.val x)
    (getRegisterFromImmediate t c false).value then t.val x else
    (getRegisterFromImmediate t c false).value)) = _
  rw [value_fromImmediate]
  split
  · rw [ofInt_val]
  · rw [ofInt_val]

theorem left_exact {op : Op} {c : BitVec t.bits} (h : Exact t op true c) (x : BitVec t.bits) :
    (emit t op (.loadi c) (.reg x)).eval t = op.eval t c x := by
  have hreg : ∀ o : Op, o.isBinary = true → o.commutes = false → o ≠ .SUB →
      (emit t o (.loadi c) (.reg x)).eval t = o.eval t c x := by
    intro o hbin hcomm hsub
    have hsrc : getSrcGenRegImm t o (.loadi c) (.reg x) =
        (.reg (t.val c) false, .reg (t.val x) false, false) := by
      simp [getSrcGenRegImm, hbin, hcomm, hsub, selReg, Operand.bits]
    rw [emit, hsrc]
    exact emitWith_exact rfl rfl trivial fun _ => rfl
  have hcomm : ∀ o : Op, o.isBinary = true → o.commutes = true →
      (emit t o (.loadi c) (.reg x)).eval t = o.eval t c x := by
    intro o hbin hcomm
    have hsub : o ≠ .SUB := by
      rintro rfl
      simp [Op.commutes] at hcomm
    have hsat : o ≠ .SUBSAT := by
      rintro rfl
      simp [Op.commutes] at hcomm
    have hsrc : getSrcGenRegImm t o (.loadi c) (.reg x) =
        (.reg (t.val x) false, getRegisterFromImmediate t c false, false) := by
      simp [getSrcGenRegImm, hbin, hcomm, hsub, selReg, Operand.bits]
    rw [emit, hsrc, ← eval_comm hcomm]
    exact emitWith_exact rfl (value_fromImmediate c) (covers_fromImmediate c false)
      fun h => absurd h hsat
  cases op with
  | ADD => exact hcomm _ rfl rfl
  | ADDSAT => exact hcomm _ rfl rfl
  | AND => exact hcomm _ rfl rfl
  | OR => exact hcomm _ rfl rfl
  | XOR => exact hcomm _ rfl rfl
  | SUB => exact left_sub c x
  | SUBSAT => exact hreg _ rfl rfl (by simp)
  | SHL => exact hreg _ rfl rfl (by simp)
  | SHR => exact hreg _ rfl rfl (by simp)
  | ASR => exact hreg _ rfl rfl (by simp)
  | cmp cond => exact h.elim
  | sel cond =>
    rw [left_sel]
    -- where the two are equal it does not matter which one is taken
    have hne : t.val x = t.val c → x = c := val_injective
    rcases h with rfl | rfl
    · simp only [getGenCompare, Cond.holds, Op.eval, Bool.not_true, Bool.false_eq_true, if_false]
      by_cases hxc : t.val x = t.val c
      · simp [hne hxc]
      · simp [hxc, Ne.symm hxc]
    · simp only [getGenCompare, Cond.holds, Op.eval, Bool.not_true, Bool.false_eq_true, if_false]
      by_cases hxc : t.val x = t.val c
      · simp [hne hxc]
      · simp [hxc, Ne.symm hxc]

theorem left_inexact {op : Op} {c : BitVec t.bits} (h : ¬ Exact t op true c) :
    ∃ x, (emit t op (.loadi c) (.reg x)).eval t ≠ op.eval t c x := by
  cases op with
  | cmp cond =>
    -- the two conditions differ on equal operands
    refine ⟨c, ?_⟩
    show Result.flag ((getGenCompare true cond).holds (t.val c)
      (getRegisterFromImmediate t c false).value) ≠ .flag (cond.holds (t.val c) (t.val c))
    rw [value_fromImmediate]
    cases cond <;> simp [getGenCompare, Cond.holds]
  | sel cond =>
    have hxc : c + 1 ≠ c := by
      intro heq
      have hone : (1 : BitVec t.bits) = 0 := by simpa using heq
      cases t <;> simp [IntType.bits] at hone
    have hval : t.val (c + 1) ≠ t.val c := fun hv => hxc (val_injective hv)
    refine ⟨c + 1, ?_⟩
    rw [left_sel]
    simp only [Op.eval, ne_eq, Result.value.injEq]
    generalize c + 1 = x at hxc hval
    -- both choose by one order or both by the other, from changed places
    rcases lt_or_gt_of_ne hval with hlt | hlt
    · cases cond with
      | EQ => exact absurd (.inl rfl) h
      | NE => exact absurd (.inr rfl) h
      | LE => simp [getGenCompare, Cond.holds, hlt.not_gt, hlt.not_ge, hxc.symm]
      | LT => simp [getGenCompare, Cond.holds, hlt.not_gt, hlt.not_ge, hxc.symm]
      | GE => simp [getGenCompare, Cond.holds, hlt, hlt.le, hxc]
      | GT => simp [getGenCompare, Cond.holds, hlt, hlt.le, hxc]
    · cases cond with
      | EQ => exact absurd (.inl rfl) h
      | NE => exact absurd (.inr rfl) h
      | LE => simp [getGenCompare, Cond.holds, hlt.le, hlt, hxc]
      | LT => simp [getGenCompare, Cond.holds, hlt.le, hlt, hxc]
      | GE => simp [getGenCompare, Cond.holds, hlt.not_gt, hlt.not_ge, hxc.symm]
      | GT => simp [getGenCompare, Cond.holds, hlt.not_gt, hlt.not_ge, hxc.symm]
  | _ => exact absurd trivial h

/-- When the instruction selected with an immediate computes what the IR says, for every value of
the other operand. -/
theorem immediate_fold_exact_iff (t : IntType) (op : Op) (left : Bool) (c : BitVec t.bits) :
    (∀ x, (emit t op (operands left c x).1 (operands left c x).2).eval t =
      op.eval t (operands left c x).1.bits (operands left c x).2.bits) ↔ Exact t op left c := by
  cases left with
  | false =>
    constructor
    · intro hall
      by_contra hnot
      obtain ⟨x, hx⟩ := right_inexact hnot
      exact hx (hall x)
    · intro hexact x
      exact right_exact hexact x
  | true =>
    constructor
    · intro hall
      by_contra hnot
      obtain ⟨x, hx⟩ := left_inexact hnot
      exact hx (hall x)
    · intro hexact x
      exact left_exact hexact x

/-- `5 <= x` is selected as `x > 5`. -/
theorem compare_left_wrong :
    (emit .S32 (.cmp .LE) (.loadi 5) (.reg 5)).eval .S32 ≠ Op.eval .S32 5 5 (.cmp .LE) := by
  decide

end

end ImmediateFold

end Backend
