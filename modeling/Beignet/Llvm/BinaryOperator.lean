/-
Integer binary operators (`GenWriter::emitBinaryOperator` of `llvm_gen_backend.cpp`).

A multiply by a constant and an unsigned divide by one become a shift when the constant passes
`isPowerOf<2>`.  That test and `logi2` take 32-bit arguments (`sys/platform.hpp`), so that a wider
constant is cut to its low half, and 0 passes the test.

The constant of a multiply is looked for in operand 0 alone: the second look is at operand 0 again.

* **`strength_reduction_exact_iff`** — for which constants the shifts are exact.
-/
import Mathlib

namespace Llvm

namespace BinaryOperator

/-! ### `sys/platform.hpp` -/

def logi2 (x : BitVec 32) : ℕ :=
  if x >>> 1 = 0 then 0 else logi2 (x >>> 1) + 1
termination_by x.toNat
decreasing_by
  have hne : (x >>> 1).toNat ≠ 0 := fun h => by simp_all [← BitVec.toNat_inj]
  have hshift : (x >>> 1).toNat = x.toNat / 2 := by simp [Nat.shiftRight_eq_div_pow]
  omega

def isPowerOf2 (i : BitVec 32) : Bool := (i - 1) &&& i == 0

/-! ### The operators -/

/-- An LLVM value of an integer type: a `ConstantInt`, or what a register holds. -/
inductive Value (w : ℕ) where
  | const (c : BitVec w)
  | reg (r : ℕ)

inductive Opcode where
  | Add | Sub | Mul | URem | SRem | UDiv | SDiv | And | Or | Xor | Shl | LShr | AShr

inductive IrOpcode where
  | ADD | SUB | MUL | REM | DIV | AND | OR | XOR | SHL | SHR | ASR

/-- An emitted instruction; `unsigned` tells which of the two types of the width it has. -/
structure Insn (w : ℕ) where
  op : IrOpcode
  unsigned : Bool := false
  src0 : Value w
  src1 : Value w

variable {w : ℕ}

/-- `dyn_cast<ConstantInt>` -/
def Value.constant : Value w → Option (BitVec w)
  | const c => some c
  | reg _ => none

/-- `getSExtValue` and `getZExtValue`, as a 32-bit argument. -/
def sext32 (c : BitVec w) : BitVec 32 := (c.signExtend 64).setWidth 32

def zext32 (c : BitVec w) : BitVec 32 := (c.setWidth 64).setWidth 32

/-- `ConstantInt::get(c->getType(), logi2(c->getZExtValue()))` -/
def logConstant (c : BitVec w) : Value w := .const (BitVec.ofNat w (logi2 (zext32 c)))

def emitMul (src0 src1 : Value w) : Insn w :=
  match src0.constant with
  | some c =>
    if isPowerOf2 (sext32 c) then { op := .SHL, src0 := src1, src1 := logConstant c }
    else { op := .MUL, src0, src1 }
  | none =>
    -- operand 0 again, where operand 1 is meant
    match src0.constant with
    | some c =>
      if isPowerOf2 (sext32 c) then { op := .SHL, src0, src1 := logConstant c }
      else { op := .MUL, src0, src1 }
    | none => { op := .MUL, src0, src1 }

def emitUDiv (src0 src1 : Value w) : Insn w :=
  match src1.constant with
  | some c =>
    if isPowerOf2 (zext32 c) then { op := .SHR, unsigned := true, src0, src1 := logConstant c }
    else { op := .DIV, unsigned := true, src0, src1 }
  | none => { op := .DIV, unsigned := true, src0, src1 }

def emitBinaryOperator (opcode : Opcode) (src0 src1 : Value w) : Insn w :=
  match opcode with
  | .Add => { op := .ADD, src0, src1 }
  | .Sub => { op := .SUB, src0, src1 }
  | .Mul => emitMul src0 src1
  | .URem => { op := .REM, unsigned := true, src0, src1 }
  | .SRem => { op := .REM, src0, src1 }
  | .UDiv => emitUDiv src0 src1
  | .SDiv => { op := .DIV, src0, src1 }
  | .And => { op := .AND, src0, src1 }
  | .Or => { op := .OR, src0, src1 }
  | .Xor => { op := .XOR, src0, src1 }
  | .Shl => { op := .SHL, src0, src1 }
  | .LShr => { op := .SHR, unsigned := true, src0, src1 }
  | .AShr => { op := .ASR, src0, src1 }

/-! ### What they compute -/

def Value.eval (env : ℕ → BitVec w) : Value w → BitVec w
  | const c => c
  | reg r => env r

def IrOpcode.eval (unsigned : Bool) (x y : BitVec w) : IrOpcode → BitVec w
  | ADD => x + y
  | SUB => x - y
  | MUL => x * y
  | REM => if unsigned then x.umod y else x.srem y
  | DIV => if unsigned then x.udiv y else x.sdiv y
  | AND => x &&& y
  | OR => x ||| y
  | XOR => x ^^^ y
  | SHL => x <<< y.toNat
  | SHR => if unsigned then x >>> y.toNat else x.sshiftRight y.toNat
  | ASR => x.sshiftRight y.toNat

def Insn.eval (env : ℕ → BitVec w) (i : Insn w) : BitVec w :=
  i.op.eval i.unsigned (i.src0.eval env) (i.src1.eval env)

/-! ### The test and the logarithm -/

theorem logi2_eq (x : BitVec 32) : logi2 x = Nat.log 2 x.toNat := by
  induction x using logi2.induct with
  | case1 x h =>
    have hshift : x.toNat / 2 = 0 := by
      have := congrArg BitVec.toNat h
      simpa [Nat.shiftRight_eq_div_pow] using this
    rw [logi2, if_pos h, eq_comm, Nat.log_eq_zero_iff]
    exact .inl (by omega)
  | case2 x h ih =>
    have hshift : (x >>> 1).toNat = x.toNat / 2 := by simp [Nat.shiftRight_eq_div_pow]
    have hpos : x.toNat / 2 ≠ 0 := fun hz => h (by
      rw [← BitVec.toNat_inj, hshift, hz]
      rfl)
    have hlog := Nat.log_of_one_lt_of_le Nat.one_lt_two (show 2 ≤ x.toNat by omega)
    rw [logi2, if_neg h, ih, hshift, hlog]

theorem logi2_lt (x : BitVec 32) : logi2 x < 32 := by
  rw [logi2_eq]
  rcases Nat.eq_zero_or_pos x.toNat with h | h
  · simp [h]
  · exact Nat.log_lt_of_lt_pow h.ne' x.isLt

theorem isPowerOf2_iff {i : BitVec 32} (hi : i ≠ 0) :
    isPowerOf2 i = true ↔ i.toNat.isPowerOfTwo := by
  have hpos : i.toNat ≠ 0 := fun h => hi (BitVec.eq_of_toNat_eq h)
  have hpred : (i - 1).toNat = i.toNat - 1 := by
    have hone : (1 : BitVec 32).toNat = 1 := rfl
    rw [BitVec.toNat_sub_of_le (by rw [BitVec.le_def, hone]; omega), hone]
  rw [isPowerOf2, beq_iff_eq, ← BitVec.toNat_inj, BitVec.toNat_and, hpred, Nat.and_comm]
  exact Nat.and_sub_one_eq_zero_iff_isPowerOfTwo hpos

/-- A constant that passes the test is the power that the logarithm gives. -/
theorem toNat_eq_two_pow_logi2 {i : BitVec 32} (hi : i ≠ 0) (hp : isPowerOf2 i = true) :
    i.toNat = 2 ^ logi2 i := by
  obtain ⟨k, hk⟩ := (isPowerOf2_iff hi).mp hp
  rw [logi2_eq, hk, Nat.log_pow Nat.one_lt_two]

/-! ### When the shifts are exact -/

/-- The constant has 32 bits, or its low half does not pass for a power of two. -/
def Exact (c : BitVec w) : Prop := c.toNat < 2 ^ 32 ∨ isPowerOf2 (zext32 c) = false

instance (c : BitVec w) : Decidable (Exact c) := inferInstanceAs (Decidable (_ ∨ _))

/-- The widths of the integer types. -/
def IntWidth (w : ℕ) : Prop := w = 8 ∨ w = 16 ∨ w = 32 ∨ w = 64

variable {c : BitVec w}

theorem toNat_zext32 (hw : IntWidth w) (c : BitVec w) : (zext32 c).toNat = c.toNat % 2 ^ 32 := by
  have hlt : c.toNat < 2 ^ 64 :=
    lt_of_lt_of_le c.isLt (Nat.pow_le_pow_right Nat.two_pos (by
      rcases hw with rfl | rfl | rfl | rfl <;> omega))
  rw [zext32, BitVec.toNat_setWidth, BitVec.toNat_setWidth, Nat.mod_eq_of_lt hlt]

/-- A negative constant of 8 or 16 bits never passes the test, and one of 64 bits is cut. -/
theorem sext32_eq_zext32 (hw : IntWidth w) (hp : isPowerOf2 (sext32 c) = true) :
    sext32 c = zext32 c := by
  cases hmsb : c.msb with
  | false =>
    rw [sext32, zext32, BitVec.signExtend_eq_setWidth_of_msb_false hmsb]
  | true =>
    have hge : 2 ^ (w - 1) ≤ c.toNat := by
      have := BitVec.msb_eq_decide c
      rw [hmsb] at this
      simpa using this.symm
    have hsext : (sext32 c).toNat = (c.toNat + (2 ^ 64 - 2 ^ w)) % 2 ^ 32 := by
      have hlt : c.toNat < 2 ^ 64 :=
        lt_of_lt_of_le c.isLt (Nat.pow_le_pow_right Nat.two_pos (by
          rcases hw with rfl | rfl | rfl | rfl <;> omega))
      rw [sext32, BitVec.toNat_setWidth, BitVec.toNat_signExtend, BitVec.toNat_setWidth, hmsb,
        Nat.mod_eq_of_lt hlt]
      rfl
    have hlt := c.isLt
    -- sign extension from 8 or 16 bits leaves a number between the last two powers
    have hbetween : ∀ n, 2 ^ 31 < n → n < 2 ^ 32 → ¬ n.isPowerOfTwo := by
      rintro n hlo hhi ⟨k, rfl⟩
      have h1 := (Nat.pow_lt_pow_iff_right Nat.one_lt_two).mp hlo
      have h2 := (Nat.pow_lt_pow_iff_right Nat.one_lt_two).mp hhi
      omega
    have hnot : 2 ^ 31 < (sext32 c).toNat → False := by
      intro hlo
      have hne : sext32 c ≠ 0 := by
        rintro hz
        rw [hz] at hlo
        simp at hlo
      exact hbetween _ hlo (sext32 c).isLt ((isPowerOf2_iff hne).mp hp)
    rcases hw with rfl | rfl | rfl | rfl
    · exact (hnot (by omega)).elim
    · exact (hnot (by omega)).elim
    · refine BitVec.eq_of_toNat_eq ?_
      rw [hsext, toNat_zext32 (.inr (.inr (.inl rfl)))]
      omega
    · refine BitVec.eq_of_toNat_eq ?_
      rw [hsext, toNat_zext32 (.inr (.inr (.inr rfl)))]
      omega

/-- The shift amount is in range, so that its constant is not cut. -/
theorem toNat_logConstant (hw : IntWidth w) (c : BitVec w) (env : ℕ → BitVec w) :
    ((logConstant c).eval env).toNat = logi2 (zext32 c) := by
  have hlog := logi2_lt (zext32 c)
  have hpow : 2 ^ 8 ≤ 2 ^ w :=
    Nat.pow_le_pow_right Nat.two_pos (by rcases hw with rfl | rfl | rfl | rfl <;> omega)
  rw [logConstant, Value.eval, BitVec.toNat_ofNat, Nat.mod_eq_of_lt (by omega)]

/-- A constant of 32 bits that passes the test is the power of two that is shifted by. -/
theorem toNat_eq_two_pow (hw : IntWidth w) (hc : c ≠ 0) (hlt : c.toNat < 2 ^ 32)
    (hp : isPowerOf2 (zext32 c) = true) : c.toNat = 2 ^ logi2 (zext32 c) := by
  have hval : (zext32 c).toNat = c.toNat := by rw [toNat_zext32 hw, Nat.mod_eq_of_lt hlt]
  have hne : zext32 c ≠ 0 := by
    intro hz
    rw [hz] at hval
    exact hc (BitVec.eq_of_toNat_eq hval.symm)
  rw [← hval]
  exact toNat_eq_two_pow_logi2 hne hp

/-! ### Divide -/

/-- The divide by a constant, as the emitted shift or the emitted divide. -/
theorem udiv_eval (x : Value w) (c : BitVec w) (env : ℕ → BitVec w) :
    (emitBinaryOperator .UDiv x (.const c)).eval env =
      if isPowerOf2 (zext32 c) then x.eval env >>> ((logConstant c).eval env).toNat
      else (x.eval env).udiv c := by
  show (emitUDiv x (.const c)).eval env = _
  simp only [emitUDiv, Value.constant]
  split
  · rfl
  · rfl

theorem udiv_exact (hw : IntWidth w) (hc : c ≠ 0) (hexact : Exact c) (x : Value w)
    (env : ℕ → BitVec w) :
    (emitBinaryOperator .UDiv x (.const c)).eval env = (x.eval env).udiv c := by
  rw [udiv_eval]
  split
  · rename_i hp
    have hlt : c.toNat < 2 ^ 32 := hexact.resolve_right (by simp [hp])
    refine BitVec.eq_of_toNat_eq ?_
    rw [toNat_logConstant hw, BitVec.toNat_ushiftRight, Nat.shiftRight_eq_div_pow,
      ← toNat_eq_two_pow hw hc hlt hp]
    exact BitVec.toNat_udiv.symm
  · rfl

/-- A wider constant whose low half passes the test is shifted out of itself at most 31 places. -/
theorem udiv_inexact (hw : IntWidth w) (hexact : ¬ Exact c) :
    (emitBinaryOperator .UDiv (.const c) (.const c)).eval (fun _ => 0) ≠ c.udiv c := by
  have hge : 2 ^ 32 ≤ c.toNat := by
    by_contra hlt
    exact hexact (.inl (by omega))
  have hp : isPowerOf2 (zext32 c) = true := by
    by_contra hp
    exact hexact (.inr (by simpa using hp))
  rw [udiv_eval, if_pos hp]
  intro heq
  have hone : (c.udiv c).toNat = 1 := by
    show (c / c).toNat = 1
    rw [BitVec.toNat_udiv, Nat.div_self (by omega)]
  have hshift := congrArg BitVec.toNat heq
  rw [toNat_logConstant hw, BitVec.toNat_ushiftRight, Nat.shiftRight_eq_div_pow, hone] at hshift
  have hlog : 2 ^ logi2 (zext32 c) ≤ 2 ^ 31 :=
    Nat.pow_le_pow_right Nat.two_pos (Nat.le_of_lt_succ (logi2_lt _))
  have htwo : 2 ≤ c.toNat / 2 ^ logi2 (zext32 c) := by
    rw [Nat.le_div_iff_mul_le (Nat.two_pow_pos _)]
    omega
  have : c.toNat / 2 ^ logi2 (zext32 c) = 1 := hshift
  omega

/-! ### Multiply -/

/-- The multiply by a constant, as the emitted shift or the emitted multiply. -/
theorem mul_eval (c : BitVec w) (x : Value w) (env : ℕ → BitVec w) :
    (emitBinaryOperator .Mul (.const c) x).eval env =
      if isPowerOf2 (sext32 c) then x.eval env <<< ((logConstant c).eval env).toNat
      else c * x.eval env := by
  show (emitMul (.const c) x).eval env = _
  simp only [emitMul, Value.constant]
  split
  · rfl
  · rfl

theorem mul_exact (hw : IntWidth w) (hc : c ≠ 0) (hexact : Exact c) (x : Value w)
    (env : ℕ → BitVec w) :
    (emitBinaryOperator .Mul (.const c) x).eval env = c * x.eval env := by
  rw [mul_eval]
  split
  · rename_i hp
    have hp' : isPowerOf2 (zext32 c) = true := sext32_eq_zext32 hw hp ▸ hp
    have hlt : c.toNat < 2 ^ 32 := hexact.resolve_right (by simp [hp'])
    refine BitVec.eq_of_toNat_eq ?_
    rw [toNat_logConstant hw, BitVec.toNat_shiftLeft, BitVec.toNat_mul, Nat.shiftLeft_eq,
      ← toNat_eq_two_pow hw hc hlt hp', Nat.mul_comm]
  · rfl

/-- Zero, and a wider constant whose low half passes the test, are no multiples of the shift. -/
theorem mul_inexact (hw : IntWidth w) (hexact : ¬ (c ≠ 0 ∧ Exact c)) :
    (emitBinaryOperator .Mul (.const c) (.const 1)).eval (fun _ => 0) ≠ c * 1 := by
  have hone : (1 : BitVec w).toNat = 1 := by
    rcases hw with rfl | rfl | rfl | rfl <;> rfl
  have hp : isPowerOf2 (sext32 c) = true := by
    by_cases hc : c = 0
    · have hmsb : c.msb = false := by
        rw [hc]
        exact BitVec.msb_zero
      rw [sext32, BitVec.signExtend_eq_setWidth_of_msb_false hmsb, hc]
      simp [isPowerOf2]
    · have hnot : ¬ Exact c := fun h => hexact ⟨hc, h⟩
      have hge : 2 ^ 32 ≤ c.toNat := by
        by_contra hlt
        exact hnot (.inl (by omega))
      obtain rfl : w = 64 := by
        have := c.isLt
        rcases hw with rfl | rfl | rfl | rfl <;> omega
      have hext : sext32 c = zext32 c := by
        rw [sext32, zext32, BitVec.signExtend_eq, BitVec.setWidth_eq]
      rw [hext]
      by_contra hp
      exact hnot (.inr (by simpa using hp))
  rw [mul_eval, if_pos hp, mul_one]
  intro heq
  have hshift := congrArg BitVec.toNat heq
  have hlog : 2 ^ logi2 (zext32 c) ≤ 2 ^ 31 :=
    Nat.pow_le_pow_right Nat.two_pos (Nat.le_of_lt_succ (logi2_lt _))
  have hval : 2 ^ logi2 (zext32 c) % 2 ^ w = c.toNat := by
    rw [toNat_logConstant hw, BitVec.toNat_shiftLeft, Nat.shiftLeft_eq] at hshift
    simpa [Value.eval, hone] using hshift
  by_cases hc : c = 0
  · -- the shift of 1 by `logi2 0` places is 1
    have hz : logi2 (zext32 c) = 0 := by
      rw [hc, zext32, logi2_eq]
      simp
    have hw' : w ≠ 0 := by rcases hw with rfl | rfl | rfl | rfl <;> omega
    rw [hz, hc, Nat.pow_zero, Nat.mod_eq_of_lt (Nat.one_lt_two_pow hw')] at hval
    simp at hval
  · have hnot : ¬ Exact c := fun h => hexact ⟨hc, h⟩
    have hge : 2 ^ 32 ≤ c.toNat := by
      by_contra hlt
      exact hnot (.inl (by omega))
    have := Nat.mod_le (2 ^ logi2 (zext32 c)) (2 ^ w)
    omega

/-- Which constants are divided by and multiplied with exactly: those of at most 32 bits, and the
wider ones whose low half does not pass for a power of two; and a multiply by 0 is not exact. -/
theorem strength_reduction_exact_iff (hw : IntWidth w) (c : BitVec w) :
    (c ≠ 0 → ((∀ (x : Value w) (env : ℕ → BitVec w),
      (emitBinaryOperator .UDiv x (.const c)).eval env = (x.eval env).udiv c) ↔ Exact c)) ∧
    ((∀ (x : Value w) (env : ℕ → BitVec w),
      (emitBinaryOperator .Mul (.const c) x).eval env = c * x.eval env) ↔ c ≠ 0 ∧ Exact c) := by
  refine ⟨fun hc => ⟨fun hall => ?_, fun hexact => udiv_exact hw hc hexact⟩, fun hall => ?_,
    fun hexact => mul_exact hw hexact.1 hexact.2⟩
  · by_contra hnot
    exact udiv_inexact hw hnot (hall (.const c) fun _ => 0)
  · by_contra hnot
    exact mul_inexact hw hnot (hall (.const 1) fun _ => 0)

/-- The divide of a register by 8, on 64 bits. -/
theorem udiv_eight :
    (emitBinaryOperator .UDiv (.reg 0) (.const 8)).eval (fun _ => 100#64) = (100#64).udiv 8 :=
  (((strength_reduction_exact_iff (.inr (.inr (.inr rfl))) 8).1 (by simp)).mpr
    (.inl (by simp))) (.reg 0) fun _ => 100#64

/-- Zero times a register is emitted as the register. -/
theorem mul_zero_wrong :
    (emitBinaryOperator .Mul (.const 0#32) (.reg 0)).eval (fun _ => 7) ≠ 0#32 * 7 := by
  rw [mul_eval, if_pos (by rfl), toNat_logConstant (.inr (.inr (.inl rfl))), logi2_eq]
  decide

end BinaryOperator

end Llvm
