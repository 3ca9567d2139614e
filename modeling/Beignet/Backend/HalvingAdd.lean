/-
`hadd` and `rhadd`: the OpenCL library functions (`ocl_integer.tmpl.cl`) around the emitted
`HADD` and `RHADD` (`emitBinaryWithTempInstruction`), and around `I64HADD` and `I64RHADD` of Gen7
and of Gen8.

The library gives operands of opposite signs to a plain expression and all others to the unsigned
instruction, also 0 with a negative number, whose unsigned half is wrong.  The emitted `RHADD`
adds 1 to the low dword of a sum and loses the carry.

* `average_dword`, `average_long`, `average_qword` — when a lane gets the average.
-/
import Beignet.Backend.LongCode
import Beignet.Lib.Saturate

namespace Backend

namespace LongCode

open Simd Saturate

/-! ### The library -/

variable {size : ℕ}

/-- `(x < 0 && y > 0) || (x > 0 && y < 0)` -/
def opposite (x y : BitVec size) : Bool :=
  (x.slt 0 && (0 : BitVec size).slt y) || ((0 : BitVec size).slt x && y.slt 0)

/-- `hadd` of the 32-bit and the 64-bit types, around what the instruction gives. -/
def hadd (signed : Bool) (x y gen_ocl_hadd : BitVec size) : BitVec size :=
  if signed && opposite x y then (x + y).sshiftRight 1 else gen_ocl_hadd

def rhadd (signed : Bool) (x y gen_ocl_rhadd : BitVec size) : BitVec size :=
  if signed && opposite x y then (x + y + 1).sshiftRight 1 else gen_ocl_rhadd

/-- `rhadd` or `hadd` -/
def library (rounding signed : Bool) (x y given : BitVec size) : BitVec size :=
  if rounding then rhadd signed x y given else hadd signed x y given

def roundBit (rounding : Bool) : ℕ := if rounding then 1 else 0

/-- What both are for. -/
def average (rounding signed : Bool) (x y : BitVec size) : BitVec size :=
  BitVec.ofInt size ((value signed x + value signed y + roundBit rounding) / 2)

/-! ### Dwords -/

section

variable {R : Type*}

def haddOps (dst src0 src1 tmp : R) : List (Op 32 R) :=
  [.ADDC dst src0 src1, .alu2 .SHR dst (.reg dst) (.imm 1), .alu2acc .SHL tmp (.imm 31),
    .alu2 .OR dst (.reg dst) (.reg tmp)]

def rhaddOps (dst src0 src1 tmp : R) : List (Op 32 R) :=
  [.ADDC dst src0 src1, .alu2 .ADD dst (.reg dst) (.imm 1), .alu2 .SHR dst (.reg dst) (.imm 1),
    .alu2acc .SHL tmp (.imm 31), .alu2 .OR dst (.reg dst) (.reg tmp)]

/-- Both halves of the lanes put the carry back through the first lanes of `tmp`, where each reads
only what it has just written. -/
def emitHADD (curr : Control) (dst src0 src1 tmp : R) : List (Insn 32 R) :=
  (halves curr fun half => (haddOps dst src0 src1 tmp).map fun op => (op, half)).map
    fun i => .op i.1 i.2

def emitRHADD (curr : Control) (dst src0 src1 tmp : R) : List (Insn 32 R) :=
  (halves curr fun half => (rhaddOps dst src0 src1 tmp).map fun op => (op, half)).map
    fun i => .op i.1 i.2

def emitDword (rounding : Bool) : Control → R → R → R → R → List (Insn 32 R) :=
  if rounding then emitRHADD else emitHADD

end

/-! ### Longs of Gen7 -/

inductive HaddTmp where
  | a | b | c | d
  deriving DecidableEq

section

open HaddTmp

/-- The sum in `b`, `c` and `a` is halved. -/
def halve (dest : ℕ) : List (Item 32 (Reg HaddTmp)) :=
  [.under .curr [.alu2 .SHR a a (.imm 1), .alu2 .SHL d c (.imm 31), .alu2 .OR a a d,
    .alu2 .SHR c c (.imm 1), .alu2 .SHL d b (.imm 31), .alu2 .OR c c d, storeBottomHalf dest a,
    storeTopHalf dest c]]

def emitI64HADD (dest x y : ℕ) : List (Item 32 (Reg HaddTmp)) :=
  .under .curr [loadBottomHalf a x, loadBottomHalf b y, loadTopHalf c x, loadTopHalf d y,
    .addWithCarry a a b, .addWithCarry c c b, .addWithCarry c c d, .alu2 .ADD b b d] ::
  halve dest

def emitI64RHADD (dest x y : ℕ) : List (Item 32 (Reg HaddTmp)) :=
  .under .curr [loadBottomHalf a x, loadBottomHalf b y, .addWithCarry a a b,
    .alu1 .MOV c (.imm 1), .addWithCarry a a c, .alu2 .ADD b b c, loadTopHalf c x,
    loadTopHalf d y, .addWithCarry c c b, .addWithCarry c c d, .alu2 .ADD b b d] ::
  halve dest

def emitLong (rounding : Bool) : ℕ → ℕ → ℕ → List (Item 32 (Reg HaddTmp)) :=
  if rounding then emitI64RHADD else emitI64HADD

end

/-! ### Longs of Gen8 -/

namespace Gen8

inductive HaddReg where
  | src0 | src1 | dst | tmp0 | tmp1
  deriving DecidableEq

def emitI64HADD : List (Item 64 HaddReg) :=
  [.under .curr [.alu2 .AND .tmp0 (.reg .src0) (.imm 1), .alu2 .AND .dst (.reg .src1) (.reg .tmp0),
    .alu2 .SHR .tmp0 (.reg .src0) (.imm 1), .alu2 .SHR .tmp1 (.reg .src1) (.imm 1),
    .alu2 .ADD .dst (.reg .dst) (.reg .tmp0), .alu2 .ADD .dst (.reg .dst) (.reg .tmp1)]]

def emitI64RHADD : List (Item 64 HaddReg) :=
  [.under .curr [.alu2 .AND .tmp0 (.reg .src0) (.imm 1), .alu2 .AND .tmp1 (.reg .src1) (.imm 1),
    .alu2 .OR .dst (.reg .tmp0) (.reg .tmp1), .alu2 .SHR .tmp0 (.reg .src0) (.imm 1),
    .alu2 .SHR .tmp1 (.reg .src1) (.imm 1), .alu2 .ADD .dst (.reg .dst) (.reg .tmp0),
    .alu2 .ADD .dst (.reg .dst) (.reg .tmp1)]]

def emitLong (rounding : Bool) : List (Item 64 HaddReg) :=
  if rounding then emitI64RHADD else emitI64HADD

end Gen8

/-! ### The instructions on numbers -/

section

variable {R : Type*} [DecidableEq R] {dst src0 src1 tmp : R} (htmp : dst ≠ tmp)
  (L : Lane 32 R) (acc : ℕ)

include htmp

theorem toNat_haddOps :
    (((haddOps dst src0 src1 tmp).foldl (blockStep Op.eval) (L, acc)).1.reg dst).toNat =
      ((L.reg src0).toNat + (L.reg src1).toNat) / 2 := by
  have hreg : ((haddOps dst src0 src1 tmp).foldl (blockStep Op.eval) (L, acc)).1.reg dst =
      (L.reg src0 + L.reg src1) >>> 1 |||
        BitVec.ofNat 32 (carry (L.reg src0) (L.reg src1)) <<< 31 := by
    simp [haddOps, blockStep, Op.eval, Effect.toReg, Effect.toRegAcc, Effect.apply, Effect.regs,
      htmp]
  have := (L.reg src0).isLt
  have := (L.reg src1).isLt
  rw [hreg, toNat_halve, toNat_carry, BitVec.toNat_add]
  omega

/-- The addition of 1 to the low dword of the sum wraps around without a carry. -/
theorem toNat_rhaddOps :
    (((rhaddOps dst src0 src1 tmp).foldl (blockStep Op.eval) (L, acc)).1.reg dst).toNat =
      if (L.reg src0).toNat + (L.reg src1).toNat = 2 ^ 32 - 1 then 0
      else ((L.reg src0).toNat + (L.reg src1).toNat + 1) / 2 := by
  have hreg : ((rhaddOps dst src0 src1 tmp).foldl (blockStep Op.eval) (L, acc)).1.reg dst =
      (L.reg src0 + L.reg src1 + 1) >>> 1 |||
        BitVec.ofNat 32 (carry (L.reg src0) (L.reg src1)) <<< 31 := by
    simp [rhaddOps, blockStep, Op.eval, Effect.toReg, Effect.toRegAcc, Effect.apply, Effect.regs,
      htmp]
  have hone : (1 : BitVec 32).toNat = 1 := rfl
  have := (L.reg src0).isLt
  have := (L.reg src1).isLt
  rw [hreg, toNat_halve, toNat_carry, BitVec.toNat_add, BitVec.toNat_add, hone]
  split
  · omega
  · omega

end

section

variable {mask : ℕ → Bool} {curr : Control} {l : ℕ} (hw : Whole curr) (hl : l < curr.execWidth)
  (hp : curr.predicated = false) (hon : (curr.noMask || mask l) = true)

include hw hl hp hon

/-- An executed lane of the dword instructions. -/
theorem toNat_emitDword {R : Type*} [DecidableEq R] {dst src0 src1 tmp : R} (htmp : dst ≠ tmp)
    (s : State 32 R) (rounding : Bool) :
    (((run mask (emitDword rounding curr dst src0 src1 tmp) s).lane l).reg dst).toNat =
      if rounding then
        if ((s.lane l).reg src0).toNat + ((s.lane l).reg src1).toNat = 2 ^ 32 - 1 then 0
        else (((s.lane l).reg src0).toNat + ((s.lane l).reg src1).toNat + 1) / 2
      else (((s.lane l).reg src0).toNat + ((s.lane l).reg src1).toNat) / 2 := by
  have hOn : On mask curr l (s.lane l) = true := by
    rw [On, hon, hp]
    rfl
  cases rounding with
  | true =>
    show (((run mask (emitRHADD curr dst src0 src1 tmp) s).lane l).reg dst).toNat = _
    rw [emitRHADD, lane_run_halves hw.fits hl s (rhaddOps dst src0 src1 tmp)
      (fun L => ((rhaddOps dst src0 src1 tmp).foldl (blockStep Op.eval) (L, 0)).1)
      (by simp [rhaddOps, Op.eval, Effect.toReg, Effect.toRegAcc]) (fun _ _ => rfl) fun _ => rfl,
      hOn, if_pos rfl, toNat_rhaddOps htmp]
    rfl
  | false =>
    show (((run mask (emitHADD curr dst src0 src1 tmp) s).lane l).reg dst).toNat = _
    rw [emitHADD, lane_run_halves hw.fits hl s (haddOps dst src0 src1 tmp)
      (fun L => ((haddOps dst src0 src1 tmp).foldl (blockStep Op.eval) (L, 0)).1)
      (by simp [haddOps, Op.eval, Effect.toReg, Effect.toRegAcc]) (fun _ _ => rfl) fun _ => rfl,
      hOn, if_pos rfl, toNat_haddOps htmp]
    rfl

end

variable (active : Bool)

/-- A sum of 65 bits in three dwords is halved. -/
theorem halve_arith {a b c n : ℕ} (hn : b * 2 ^ 64 + c * 2 ^ 32 + a = n) (hlt : n < 2 ^ 65) :
    (b % 2 * 2 ^ 31 + c / 2) * 2 ^ 32 + (c % 2 * 2 ^ 31 + a / 2) = n / 2 := by
  have hb : b % 2 = b := Nat.mod_eq_of_lt (by omega)
  have hhalf : n / 2 = (b * 2 ^ 31 * 2 ^ 32 + c * 2 ^ 31) + a / 2 := by
    rw [← hn, show b * 2 ^ 64 + c * 2 ^ 32 + a = a + 2 * (b * 2 ^ 31 * 2 ^ 32 + c * 2 ^ 31) by ring,
      Nat.add_mul_div_left _ _ (by decide), Nat.add_comm]
  have hc := Nat.div_add_mod c 2
  rw [hb, hhalf]
  generalize a / 2 = q
  generalize c / 2 = u at hc ⊢
  generalize c % 2 = v at hc ⊢
  rw [← hc]
  ring

theorem long_halve (L : Lane 32 (Reg HaddTmp)) (dest : ℕ) {n : ℕ}
    (hn : (L.reg (.tmp .b)).toNat * 2 ^ 64 + (L.reg (.tmp .c)).toNat * 2 ^ 32 +
      (L.reg (.tmp .a)).toNat = n) (hlt : n < 2 ^ 65) :
    (long (laneRun active (halve dest) L) dest).toNat = n / 2 := by
  have hlong : long (laneRun active (halve dest) L) dest =
      (L.reg (.tmp .c) >>> 1 ||| L.reg (.tmp .b) <<< 31) ++
        (L.reg (.tmp .a) >>> 1 ||| L.reg (.tmp .c) <<< 31) := by
    simp [halve, long]
  rw [hlong, SplitWord.toNat_append, toNat_halve, toNat_halve]
  exact halve_arith hn hlt

/-- Gen7 puts the carries together. -/
theorem toNat_emitLong (L : Lane 32 (Reg HaddTmp)) (dest x y : ℕ) (rounding : Bool) :
    (long (laneRun active (emitLong rounding dest x y) L) dest).toNat =
      ((long L x).toNat + (long L y).toNat + roundBit rounding) / 2 := by
  have hone : (1#32).toNat = 1 := rfl
  have htrue : roundBit true = 1 := rfl
  have hfalse : roundBit false = 0 := rfl
  have hx := (L.reg (.top x)).isLt
  have hx' := (L.reg (.bottom x)).isLt
  have hy := (L.reg (.top y)).isLt
  have hy' := (L.reg (.bottom y)).isLt
  have hlong : ∀ n, (long L n).toNat =
      (L.reg (.top n)).toNat * 2 ^ 32 + (L.reg (.bottom n)).toNat :=
    fun n => SplitWord.toNat_append _ _
  rw [hlong, hlong]
  cases rounding with
  | true =>
    show (long (laneRun active (emitI64RHADD dest x y) L) dest).toNat = _
    rw [emitI64RHADD, laneRun_cons]
    apply long_halve
    · simp [-BitVec.toNat_add, -BitVec.toNat_ofNat]
      simp only [BitVec.toNat_add, toNat_carry, hone]
      omega
    · omega
  | false =>
    show (long (laneRun active (emitI64HADD dest x y) L) dest).toNat = _
    rw [emitI64HADD, laneRun_cons]
    apply long_halve
    · simp [-BitVec.toNat_add, -BitVec.toNat_ofNat]
      simp only [BitVec.toNat_add, toNat_carry]
      omega
    · omega

/-- Gen8 halves the operands first. -/
theorem toNat_gen8 (L : Lane 64 Gen8.HaddReg) (rounding : Bool) :
    ((laneRun active (Gen8.emitLong rounding) L).reg .dst).toNat =
      ((L.reg .src0).toNat + (L.reg .src1).toNat + roundBit rounding) / 2 := by
  have htrue : roundBit true = 1 := rfl
  have hfalse : roundBit false = 0 := rfl
  have hx := (L.reg .src0).isLt
  have hy := (L.reg .src1).isLt
  have hor : ∀ m n : ℕ, m % 2 ||| n % 2 = (m % 2 + n % 2 + 1) / 2 := by
    intro m n
    obtain hm | hm := Nat.mod_two_eq_zero_or_one m
    all_goals obtain hn | hn := Nat.mod_two_eq_zero_or_one n
    all_goals rw [hm, hn]
    all_goals rfl
  have hand : ∀ m n : ℕ, n &&& m % 2 = (m % 2 + n % 2) / 2 := by
    intro m n
    obtain hm | hm := Nat.mod_two_eq_zero_or_one m
    · rw [hm, Nat.and_zero]
      omega
    · rw [hm, Nat.and_one_is_mod]
      omega
  cases rounding with
  | true =>
    simp [Gen8.emitLong, Gen8.emitI64RHADD]
    rw [hor, Nat.shiftRight_eq_div_pow, Nat.shiftRight_eq_div_pow]
    omega
  | false =>
    simp [Gen8.emitLong, Gen8.emitI64HADD]
    rw [hand, Nat.shiftRight_eq_div_pow, Nat.shiftRight_eq_div_pow]
    omega

/-! ### The library on numbers -/

/-- The routing goes wrong for 0 and a negative number. -/
def zeroNegative (x y : BitVec size) : Prop :=
  (x = 0 ∧ y.toInt < 0) ∨ (y = 0 ∧ x.toInt < 0)

instance (x y : BitVec size) : Decidable (zeroNegative x y) :=
  inferInstanceAs (Decidable (_ ∨ _))

theorem opposite_iff (x y : BitVec size) :
    opposite x y = true ↔ (x.toInt < 0 ∧ 0 < y.toInt) ∨ (0 < x.toInt ∧ y.toInt < 0) := by
  simp [opposite, BitVec.slt]

theorem toNat_ofInt {n : ℤ} (hlo : -2 ^ size ≤ n) (hhi : n < 2 ^ size) :
    ((BitVec.ofInt size n).toNat : ℤ) = if n < 0 then n + 2 ^ size else n := by
  have hmod : ((BitVec.ofInt size n).toNat : ℤ) = n % 2 ^ size := by
    rw [BitVec.toNat_ofInt, Int.toNat_of_nonneg (Int.emod_nonneg _ (by positivity))]
    push_cast
    rfl
  rw [hmod]
  split
  · next h => rw [← Int.add_emod_right, Int.emod_eq_of_lt (by omega) (by omega)]
  · next h => exact Int.emod_eq_of_lt (by omega) hhi

theorem roundBit_le (rounding : Bool) : roundBit rounding ≤ 1 := by
  cases rounding with
  | true => decide
  | false => decide

/-- The average as a number. -/
theorem average_iff (rounding signed : Bool) (x y given : BitVec size) {n : ℤ}
    (hn : n = (value signed x + value signed y + roundBit rounding) / 2) :
    given = average rounding signed x y ↔
      (given.toNat : ℤ) = if n < 0 then n + 2 ^ size else n := by
  have hx := toInt_cases x
  have hy := toInt_cases y
  have hx' : (x.toNat : ℤ) < 2 ^ size := by exact_mod_cast x.isLt
  have hy' : (y.toNat : ℤ) < 2 ^ size := by exact_mod_cast y.isLt
  have hround := roundBit_le rounding
  have hbounds : -2 ^ size ≤ n ∧ n < 2 ^ size := by
    cases signed with
    | true =>
      simp only [value, if_true] at hn
      omega
    | false =>
      simp only [value, Bool.false_eq_true, if_false] at hn
      omega
  rw [← BitVec.toNat_inj, average, ← hn, ← Nat.cast_inj (R := ℤ), toNat_ofInt hbounds.1 hbounds.2]

theorem sshiftRight_one {n : ℤ} (hlo : -2 ^ size ≤ 2 * n) (hhi : 2 * n < 2 ^ size) :
    (BitVec.ofInt size n).sshiftRight 1 = BitVec.ofInt size (n / 2) := by
  have htoInt : (BitVec.ofInt size n).toInt = n := by
    rw [BitVec.toInt_ofInt]
    exact Int.bmod_eq_of_le_mul_two (by push_cast; omega) (by push_cast; omega)
  rw [← BitVec.ofInt_toInt (x := (BitVec.ofInt size n).sshiftRight 1), BitVec.toInt_sshiftRight,
    htoInt, Int.shiftRight_eq_div_pow]
  rfl

/-- The plain expression is right for operands of opposite signs. -/
theorem library_opposite (rounding : Bool) (x y given : BitVec size) (h : opposite x y = true) :
    library rounding true x y given = average rounding true x y := by
  have hx := toInt_cases x
  have hy := toInt_cases y
  have hx' : (x.toNat : ℤ) < 2 ^ size := by exact_mod_cast x.isLt
  have hy' : (y.toNat : ℤ) < 2 ^ size := by exact_mod_cast y.isLt
  have hsigns := (opposite_iff x y).mp h
  have hvalue : ∀ z : BitVec size, value true z = z.toInt := fun _ => rfl
  have hsum : x + y = BitVec.ofInt size (x.toInt + y.toInt) := (ofInt_value_add true x y).symm
  cases rounding with
  | true =>
    have hone : x + y + 1 = BitVec.ofInt size (x.toInt + y.toInt + 1) := by
      rw [BitVec.ofInt_add, ← hsum]
      rfl
    show rhadd true x y given = _
    rw [rhadd, h, Bool.and_self, if_pos rfl, hone, sshiftRight_one (by omega) (by omega)]
    rfl
  | false =>
    have hfalse : roundBit false = 0 := rfl
    show hadd true x y given = _
    rw [hadd, h, Bool.and_self, if_pos rfl, hsum, sshiftRight_one (by omega) (by omega),
      average, hvalue, hvalue, hfalse, Nat.cast_zero, Int.add_zero]

/-- All other operands go to the instruction. -/
theorem library_given (rounding signed : Bool) (x y given : BitVec size)
    (h : (signed && opposite x y) = false) : library rounding signed x y given = given := by
  cases rounding with
  | true =>
    show rhadd signed x y given = given
    rw [rhadd, h, if_neg Bool.false_ne_true]
  | false =>
    show hadd signed x y given = given
    rw [hadd, h, if_neg Bool.false_ne_true]

theorem eq_zero_iff (z : BitVec size) : z = 0 ↔ z.toNat = 0 := by
  rw [← BitVec.toNat_inj]
  simp

/-- Around what an instruction gives for operands without opposite signs. -/
theorem library_iff (rounding signed : Bool) (x y given : BitVec size) {P : Prop}
    (hgiven : ∀ n : ℤ, n = (value signed x + value signed y + roundBit rounding) / 2 →
      ¬ (signed = true ∧ opposite x y = true) →
        ((given.toNat : ℤ) = (if n < 0 then n + 2 ^ size else n) ↔ P))
    (hP : signed = true → opposite x y = true → P) :
    library rounding signed x y given = average rounding signed x y ↔ P := by
  by_cases h : (signed && opposite x y) = true
  · obtain ⟨rfl, h'⟩ := Bool.and_eq_true_iff.mp h
    exact iff_of_true (library_opposite rounding x y given h') (hP rfl h')
  · rw [library_given _ _ _ _ _ (Bool.eq_false_of_not_eq_true h),
      average_iff rounding signed x y given rfl]
    exact hgiven _ rfl fun hc => h (Bool.and_eq_true_iff.mpr hc)

/-- The unsigned average of operands without opposite signs, read as a signed number. -/
theorem signed_iff (x y : BitVec size) {r m n : ℤ} (hr : 0 ≤ r) (hr' : r ≤ 1)
    (hm : m = ((x.toNat : ℤ) + y.toNat + r) / 2) (hn : n = (x.toInt + y.toInt + r) / 2)
    (hsame : ¬ ((x.toInt < 0 ∧ 0 < y.toInt) ∨ (0 < x.toInt ∧ y.toInt < 0))) :
    (m = if n < 0 then n + 2 ^ size else n) ↔ ¬ zeroNegative x y := by
  have hx := toInt_cases x
  have hy := toInt_cases y
  have hx' : (x.toNat : ℤ) < 2 ^ size := by exact_mod_cast x.isLt
  have hy' : (y.toNat : ℤ) < 2 ^ size := by exact_mod_cast y.isLt
  rw [zeroNegative, eq_zero_iff, eq_zero_iff]
  split
  · omega
  · omega

/-- Around the unsigned average. -/
theorem library_exact_iff (rounding signed : Bool) (x y given : BitVec size)
    (hgiven : given.toNat = (x.toNat + y.toNat + roundBit rounding) / 2) :
    library rounding signed x y given = average rounding signed x y ↔
      (signed = true → ¬ zeroNegative x y) := by
  have hround : (roundBit rounding : ℤ) ≤ 1 := by exact_mod_cast roundBit_le rounding
  have hm : (given.toNat : ℤ) = ((x.toNat : ℤ) + y.toNat + roundBit rounding) / 2 := by
    rw [hgiven]
    push_cast
    rfl
  refine library_iff rounding signed x y given ?_ ?_
  · intro n hn hsame
    cases signed with
    | false =>
      -- the number is its own bits
      have hn' : n = given.toNat := hn.trans hm.symm
      refine iff_of_true ?_ fun h => absurd h Bool.false_ne_true
      rw [hn', if_neg (not_lt.mpr (Nat.cast_nonneg _))]
    | true =>
      rw [opposite_iff] at hsame
      simp only [forall_const]
      exact signed_iff x y (Nat.cast_nonneg _) hround hm hn fun h => hsame ⟨rfl, h⟩
  · intro _ h _ hzn
    have hsigns := (opposite_iff x y).mp h
    rw [zeroNegative, eq_zero_iff, eq_zero_iff] at hzn
    have hx := toInt_cases x
    have hy := toInt_cases y
    omega

/-- When a dword gets the average. -/
def RightDword (rounding signed : Bool) (x y : BitVec 32) : Prop :=
  match signed with
  | true => zeroNegative x y → rounding = true ∧ x.toInt + y.toInt = -1
  | false => rounding = true → x.toNat + y.toNat ≠ 2 ^ 32 - 1

instance (rounding signed : Bool) (x y : BitVec 32) : Decidable (RightDword rounding signed x y) :=
  match signed with
  | true => inferInstanceAs (Decidable (_ → _))
  | false => inferInstanceAs (Decidable (_ → _))

/-- Around the average that loses the carry of the rounding. -/
theorem library_rhadd_iff (signed : Bool) (x y given : BitVec 32)
    (hgiven : given.toNat =
      if x.toNat + y.toNat = 2 ^ 32 - 1 then 0 else (x.toNat + y.toNat + 1) / 2) :
    library true signed x y given = average true signed x y ↔ RightDword true signed x y := by
  have hround : (roundBit true : ℤ) = 1 := rfl
  have hx := toInt_cases x
  have hy := toInt_cases y
  have hx' := x.isLt
  have hy' := y.isLt
  refine library_iff true signed x y given ?_ ?_
  · intro n hn hsame
    rw [hround] at hn
    by_cases hlost : x.toNat + y.toNat = 2 ^ 32 - 1
    · rw [if_pos hlost] at hgiven
      rw [hgiven]
      cases signed with
      | false =>
        simp only [value, Bool.false_eq_true, if_false] at hn
        refine iff_of_false ?_ fun h => h rfl hlost
        split
        · omega
        · omega
      | true =>
        -- 0 is the average of 0 and −1
        simp only [value, if_true] at hn
        rw [opposite_iff] at hsame
        show _ ↔ (zeroNegative x y → _)
        rw [zeroNegative, eq_zero_iff, eq_zero_iff]
        simp only [true_and] at hsame ⊢
        split
        · omega
        · omega
    · have hm : (given.toNat : ℤ) = ((x.toNat : ℤ) + y.toNat + 1) / 2 := by
        rw [hgiven, if_neg hlost]
        push_cast
        rfl
      cases signed with
      | false =>
        have hn' : n = given.toNat := hn.trans hm.symm
        refine iff_of_true ?_ fun _ => hlost
        rw [hn', if_neg (not_lt.mpr (Nat.cast_nonneg _))]
      | true =>
        rw [opposite_iff] at hsame
        rw [signed_iff x y zero_le_one le_rfl hm hn fun h => hsame ⟨rfl, h⟩]
        show _ ↔ (zeroNegative x y → _)
        rw [zeroNegative, eq_zero_iff, eq_zero_iff]
        omega
  · rintro rfl h hzn
    have hsigns := (opposite_iff x y).mp h
    rw [zeroNegative, eq_zero_iff, eq_zero_iff] at hzn
    omega

/-! ### An executed lane -/

section

variable {mask : ℕ → Bool} {curr : Control} {l : ℕ} (hw : Whole curr) (hl : l < curr.execWidth)
  (hp : curr.predicated = false) (hon : (curr.noMask || mask l) = true) (rounding signed : Bool)

include hw hl hp hon

theorem average_dword {R : Type*} [DecidableEq R] {dst src0 src1 tmp : R} (htmp : dst ≠ tmp)
    (s : State 32 R) :
    let x := (s.lane l).reg src0
    let y := (s.lane l).reg src1
    library rounding signed x y
      (((run mask (emitDword rounding curr dst src0 src1 tmp) s).lane l).reg dst) =
        average rounding signed x y ↔ RightDword rounding signed x y := by
  intro x y
  have hgiven := @toNat_emitDword _ _ _ hw hl hp hon _ _ _ src0 src1 _ htmp s rounding
  cases rounding with
  | true => exact library_rhadd_iff signed x y _ hgiven
  | false =>
    rw [library_exact_iff false signed x y _ hgiven]
    cases signed with
    | false =>
      exact iff_of_true (fun h => absurd h Bool.false_ne_true) fun h => absurd h Bool.false_ne_true
    | true =>
      exact ⟨fun h hzn => absurd hzn (h rfl), fun h _ hzn => absurd (h hzn).1 Bool.false_ne_true⟩

theorem average_long (dst x y : ℕ) (s : State 32 (Reg HaddTmp)) :
    let X := long (s.lane l) x
    let Y := long (s.lane l) y
    library rounding signed X Y
      (long ((run mask (emit curr (emitLong rounding dst x y)) s).lane l) dst) =
        average rounding signed X Y ↔ (signed = true → ¬ zeroNegative X Y) := by
  intro X Y
  rw [lane_run hw.fits hl hp hon]
  exact library_exact_iff rounding signed X Y _ (toNat_emitLong _ _ dst x y rounding)

theorem average_qword (s : State 64 Gen8.HaddReg) :
    let X := (s.lane l).reg .src0
    let Y := (s.lane l).reg .src1
    library rounding signed X Y
      (((run mask (emit curr (Gen8.emitLong rounding)) s).lane l).reg .dst) =
        average rounding signed X Y ↔ (signed = true → ¬ zeroNegative X Y) := by
  intro X Y
  rw [lane_run hw.fits hl hp hon]
  exact library_exact_iff rounding signed X Y _ (toNat_gen8 _ _ rounding)

end

variable {mask : ℕ → Bool} {curr : Control} {l : ℕ}

/-- The averages are right unless one operand is 0 and the other negative, and for rounded dwords
unless the sum is all ones. -/
theorem halving_exact_iff (hw : Whole curr) (hl : l < curr.execWidth)
    (hp : curr.predicated = false) (hon : (curr.noMask || mask l) = true)
    (rounding signed : Bool) :
    (∀ (R : Type) [DecidableEq R] (dst src0 src1 tmp : R), dst ≠ tmp → ∀ s : State 32 R,
      let x := (s.lane l).reg src0
      let y := (s.lane l).reg src1
      library rounding signed x y
        (((run mask (emitDword rounding curr dst src0 src1 tmp) s).lane l).reg dst) =
          average rounding signed x y ↔ RightDword rounding signed x y) ∧
    (∀ (dst x y : ℕ) (s : State 32 (Reg HaddTmp)),
      let X := long (s.lane l) x
      let Y := long (s.lane l) y
      library rounding signed X Y
        (long ((run mask (emit curr (emitLong rounding dst x y)) s).lane l) dst) =
          average rounding signed X Y ↔ (signed = true → ¬ zeroNegative X Y)) ∧
    (∀ s : State 64 Gen8.HaddReg,
      let X := (s.lane l).reg .src0
      let Y := (s.lane l).reg .src1
      library rounding signed X Y
        (((run mask (emit curr (Gen8.emitLong rounding)) s).lane l).reg .dst) =
          average rounding signed X Y ↔ (signed = true → ¬ zeroNegative X Y)) :=
  ⟨fun _ _ _ _ _ _ htmp s => average_dword hw hl hp hon rounding signed htmp s,
    fun dst x y s => average_long hw hl hp hon rounding signed dst x y s,
    fun s => average_qword hw hl hp hon rounding signed s⟩

theorem halving_exact_sixteen :
    let s : State 32 (Reg HaddTmp) := filled 5
    let X := long (s.lane 9) 1
    let Y := long (s.lane 9) 2
    library true true X Y (long ((run (fun l => l == 9) (emit ⟨16, 0, 0, false, false⟩
      (emitLong true 0 1 2)) s).lane 9) 0) = average true true X Y ↔
        (true = true → ¬ zeroNegative X Y) :=
  (halving_exact_iff ⟨.inr rfl, rfl, rfl⟩ (by decide) rfl rfl true true).2.1 0 1 2 (filled 5)

/-- `hadd (0, -2)` is 0x7FFFFFFF. -/
theorem not_halving_exact :
    let s : State 32 (Fin 4) :=
      ⟨fun r _ => if r = 2 then -2 else 0, fun _ => 0, fun _ => false⟩
    library false true 0 (-2) (((run (fun _ => true)
      (emitDword false ⟨8, 0, 0, false, false⟩ 0 1 2 3) s).lane 0).reg 0) ≠
        average false true 0 (-2) := by
  intro s h
  have hright : RightDword false true ((s.lane 0).reg 1) ((s.lane 0).reg 2) :=
    (average_dword ⟨.inl rfl, rfl, rfl⟩ (by decide) rfl rfl false true (by decide) s).mp h
  exact absurd hright (by decide)

end LongCode

end Backend
