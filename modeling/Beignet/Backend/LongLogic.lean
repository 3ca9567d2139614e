/-
A 64-bit logical operation that is done in 32 bits before its conversion to float: `lowerI64Reg`
and `convertI64ToFloat` of `gen_insn_selection.cpp`.

An operand that is loaded or converted in the same block is replaced by a register or immediate of
32 bits.  The operation on these is converted as an unsigned number, whatever the signs were.

* `lowerI64Reg_eq` — what replaces an operand is its low half;
* **`convertI64ToFloat_iff`** — when the number that is converted is the 64-bit one.
-/
import Beignet.Ir.Immediate

namespace Backend

namespace LongLogic

open Ir (ImmType)
open Ir.ImmType Saturate

def INT_MAX : ℤ := 2147483647
def INT_MIN : ℤ := -2147483648
def UINT_MAX : ℤ := 4294967295

/-- What the hardware makes of a float. -/
structure Float where
  toLong : BitVec 32 → BitVec 64
  toUD : BitVec 32 → BitVec 32

/-- The instruction that defines an operand, with the value of its source. -/
inductive Insn where
  | LOADI (immType : ImmType) (imm : BitVec 64)
  | CVT (srcType : ImmType) (src : BitVec 64)
  | other (value : BitVec 64)

/-- The integer that the low bits of a register are. -/
def asType (t : ImmType) (src : BitVec 64) : ℤ := value t.isSigned (src.setWidth t.width)

/-- The 64-bit operand. -/
def Insn.value (hw : Float) : Insn → BitVec 64
  | LOADI _ imm => imm
  | CVT srcType src =>
    if srcType = TYPE_FLOAT then hw.toLong (src.setWidth 32)
    else BitVec.ofInt 64 (asType srcType src)
  | other value => value

/-- `getIntegerValue` is signed for both types of 64 bits. -/
def lowerI64Reg (hw : Float) : Insn → Option (BitVec 32)
  | .LOADI immType imm =>
    if immType = TYPE_S64 ∧ imm.toInt ≤ INT_MAX ∧ imm.toInt ≥ INT_MIN then some (imm.setWidth 32)
    else if immType = TYPE_U64 ∧ imm.toInt ≤ UINT_MAX then some (imm.setWidth 32)
    else none
  | .CVT srcType src =>
    if srcType = TYPE_U32 ∨ srcType = TYPE_S32 then some (src.setWidth 32)
    else if srcType = TYPE_FLOAT then some (hw.toUD (src.setWidth 32))
    -- the MOV extends
    else if srcType = TYPE_U16 ∨ srcType = TYPE_S16 then
      some (BitVec.ofInt 32 (asType srcType src))
    else none
  | .other _ => none

inductive Opcode where
  | OP_AND | OP_OR | OP_XOR | other

/-- A logical operation. -/
def Opcode.run {w : ℕ} : Opcode → Option (BitVec w → BitVec w → BitVec w)
  | OP_AND => some (· &&& ·)
  | OP_OR => some (· ||| ·)
  | OP_XOR => some (· ^^^ ·)
  | other => none

def Insn.isLoadi : Insn → Bool
  | LOADI _ _ => true
  | _ => false

/-- The unsigned number that is converted, where the operation is narrowed. -/
def convertI64ToFloat (hw : Float) (opcode : Opcode) (child0 child1 : Insn) :
    Option (BitVec 32) := do
  let (dag0, dag1) := if child0.isLoadi then (child1, child0) else (child0, child1)
  let run ← opcode.run
  let src0 ← lowerI64Reg hw dag0
  let src1 ← lowerI64Reg hw dag1
  return run src0 src1

/-! ### Halves -/

/-- The upper half. -/
def high (x : BitVec 64) : BitVec 32 := x.extractLsb' 32 32

theorem value_eq_iff (signed : Bool) (x : BitVec 64) :
    ((x.setWidth 32).toNat : ℤ) = Saturate.value signed x ↔ high x = 0 := by
  have hhigh : high x = 0 ↔ x.toNat < 2 ^ 32 := by
    rw [high, ← BitVec.toNat_inj, BitVec.extractLsb'_toNat, Nat.shiftRight_eq_div_pow]
    have := x.isLt
    rw [Nat.mod_eq_of_lt (by omega)]
    show _ = 0 ↔ _
    omega
  have hx := x.isLt
  rw [hhigh, BitVec.toNat_setWidth]
  cases signed with
  | false =>
    simp only [Saturate.value, Bool.false_eq_true, if_false]
    omega
  | true =>
    simp only [Saturate.value, if_true, BitVec.toInt_eq_toNat_cond]
    omega

/-! ### Operands -/

theorem setWidth_ofInt (n : ℤ) : (BitVec.ofInt 64 n).setWidth 32 = BitVec.ofInt 32 n := by
  rw [← BitVec.toNat_inj, BitVec.toNat_setWidth, BitVec.toNat_ofInt, BitVec.toNat_ofInt]
  omega

/-- An operand that is not a converted float. -/
def Insn.IsInteger : Insn → Prop
  | CVT srcType _ => srcType ≠ TYPE_FLOAT
  | _ => True

variable {hw : Float} {child child0 child1 : Insn} {opcode : Opcode} {x : BitVec 32}

theorem lowerI64Reg_eq (h : lowerI64Reg hw child = some x) (hint : child.IsInteger) :
    x = (child.value hw).setWidth 32 := by
  cases child with
  | LOADI immType imm =>
    rw [lowerI64Reg] at h
    split_ifs at h
    · exact (Option.some.inj h).symm
    · exact (Option.some.inj h).symm
  | CVT srcType src =>
    have hfloat : srcType ≠ TYPE_FLOAT := hint
    rw [lowerI64Reg] at h
    rw [Insn.value, if_neg hfloat, setWidth_ofInt]
    split_ifs at h with hdword hword
    · -- the register itself
      have hwidth : srcType.width = 32 := by
        rcases hdword with rfl | rfl <;> rfl
      obtain rfl := Option.some.inj h
      rw [asType, hwidth, ofInt_value]
    · exact (Option.some.inj h).symm
  | other value => cases h

/-- The upper halves of the operands leave nothing in the upper half of the result. -/
def Opcode.Clears : Opcode → BitVec 32 → BitVec 32 → Prop
  | OP_AND, hi0, hi1 => hi0 &&& hi1 = 0
  | OP_OR, hi0, hi1 => hi0 = 0 ∧ hi1 = 0
  | OP_XOR, hi0, hi1 => hi0 = hi1
  | other, _, _ => True

theorem high_run_eq_zero_iff {run : BitVec 64 → BitVec 64 → BitVec 64}
    (hrun : opcode.run = some run) (a b : BitVec 64) :
    high (run a b) = 0 ↔ opcode.Clears (high a) (high b) := by
  cases opcode with
  | OP_AND =>
    obtain rfl := Option.some.inj hrun
    rw [high, BitVec.extractLsb'_and]
    exact Iff.rfl
  | OP_OR =>
    obtain rfl := Option.some.inj hrun
    rw [high, BitVec.extractLsb'_or]
    exact BitVec.or_eq_zero_iff
  | OP_XOR =>
    obtain rfl := Option.some.inj hrun
    rw [high, BitVec.extractLsb'_xor]
    exact BitVec.xor_eq_zero_iff
  | other => cases hrun

/-- The two operands may be exchanged. -/
theorem run_comm {w : ℕ} {run : BitVec w → BitVec w → BitVec w} (hrun : opcode.run = some run)
    (a b : BitVec w) : run a b = run b a := by
  cases opcode with
  | OP_AND =>
    obtain rfl := Option.some.inj hrun
    exact BitVec.and_comm a b
  | OP_OR =>
    obtain rfl := Option.some.inj hrun
    exact BitVec.or_comm a b
  | OP_XOR =>
    obtain rfl := Option.some.inj hrun
    exact BitVec.xor_comm a b
  | other => cases hrun

/-- The operation on the low halves. -/
theorem setWidth_run {run : BitVec 64 → BitVec 64 → BitVec 64} (hrun : opcode.run = some run) :
    ∃ run32 : BitVec 32 → BitVec 32 → BitVec 32, opcode.run = some run32 ∧
      ∀ a b, (run a b).setWidth 32 = run32 (a.setWidth 32) (b.setWidth 32) := by
  cases opcode with
  | OP_AND =>
    obtain rfl := Option.some.inj hrun
    exact ⟨_, rfl, fun a b => BitVec.setWidth_and⟩
  | OP_OR =>
    obtain rfl := Option.some.inj hrun
    exact ⟨_, rfl, fun a b => BitVec.setWidth_or⟩
  | OP_XOR =>
    obtain rfl := Option.some.inj hrun
    exact ⟨_, rfl, fun a b => BitVec.setWidth_xor⟩
  | other => cases hrun

theorem convertI64ToFloat_eq {run : BitVec 64 → BitVec 64 → BitVec 64}
    (hrun : opcode.run = some run) (h0 : child0.IsInteger) (h1 : child1.IsInteger)
    (h : convertI64ToFloat hw opcode child0 child1 = some x) :
    x = (run (child0.value hw) (child1.value hw)).setWidth 32 := by
  obtain ⟨run32, hrun32, hlow⟩ := setWidth_run hrun
  rw [hlow]
  rw [convertI64ToFloat] at h
  by_cases hswap : child0.isLoadi
  · simp only [hswap, if_true, hrun32, Option.bind_eq_bind, Option.bind_some] at h
    obtain ⟨src0, hsrc0, h⟩ := Option.bind_eq_some_iff.mp h
    obtain ⟨src1, hsrc1, h⟩ := Option.bind_eq_some_iff.mp h
    obtain rfl := Option.some.inj h
    rw [lowerI64Reg_eq hsrc0 h1, lowerI64Reg_eq hsrc1 h0, run_comm hrun32]
  · simp only [hswap, Bool.false_eq_true, if_false, hrun32, Option.bind_eq_bind,
      Option.bind_some] at h
    obtain ⟨src0, hsrc0, h⟩ := Option.bind_eq_some_iff.mp h
    obtain ⟨src1, hsrc1, h⟩ := Option.bind_eq_some_iff.mp h
    obtain rfl := Option.some.inj h
    rw [lowerI64Reg_eq hsrc0 h0, lowerI64Reg_eq hsrc1 h1]

/-- The number is the 64-bit one if the upper halves leave nothing. -/
theorem convertI64ToFloat_iff (signed : Bool) {run : BitVec 64 → BitVec 64 → BitVec 64}
    (hrun : opcode.run = some run) (h0 : child0.IsInteger) (h1 : child1.IsInteger)
    (h : convertI64ToFloat hw opcode child0 child1 = some x) :
    (x.toNat : ℤ) = Saturate.value signed (run (child0.value hw) (child1.value hw)) ↔
      opcode.Clears (high (child0.value hw)) (high (child1.value hw)) := by
  rw [convertI64ToFloat_eq hrun h0 h1 h, value_eq_iff, high_run_eq_zero_iff hrun]

/-- A machine for operands without floats. -/
def noFloat : Float := ⟨fun _ => 0, fun _ => 0⟩

/-- `0xff & -1` of two `int`s. -/
theorem convertI64ToFloat_and :
    (((255#32).toNat : ℕ) : ℤ) = Saturate.value true
      ((Insn.CVT TYPE_S32 0xff).value noFloat &&& (Insn.CVT TYPE_S32 0xffffffff).value noFloat) ↔
    Opcode.OP_AND.Clears (high ((Insn.CVT TYPE_S32 0xff).value noFloat))
      (high ((Insn.CVT TYPE_S32 0xffffffff).value noFloat)) :=
  convertI64ToFloat_iff true rfl (fun h => by cases h) (fun h => by cases h) (by decide)

/-- `1 | -1` of two `int`s is converted as `2 ^ 32 - 1`. -/
theorem convertI64ToFloat_negative :
    ∃ x, convertI64ToFloat noFloat .OP_OR (.CVT TYPE_S32 1) (.CVT TYPE_S32 0xffffffff) = some x ∧
      (x.toNat : ℤ) ≠ Saturate.value true
        ((Insn.CVT TYPE_S32 1).value noFloat ||| (Insn.CVT TYPE_S32 0xffffffff).value noFloat) :=
  ⟨0xffffffff, by decide, by decide⟩

end LongLogic

end Backend
