/-
The high half of a 64-bit product on Gen8, and on both generators.

* **`mulHigh_exact`** — Gen8 is exact in every active lane; Gen7 is unless `I64FullAdd` drops a
  carry, or the lane belongs to the second half and the multiplications run under the mask bit
  of its partner in the first half.
-/
import Beignet.Backend.MulHighGen7
import Beignet.Lib.Saturate

set_option linter.constructorNameAsVariable false

namespace Backend

namespace MulHigh

open Simd

namespace Gen8

/-! ### Unsigned operands -/

/-- The schoolbook product of two longs, as `calculateFullU64MUL` computes it. -/
theorem fullU64_arith (x1 x0 y1 y0 : ℕ) {t : ℕ} (hx1 : x1 < 2 ^ 32) (hx0 : x0 < 2 ^ 32)
    (hy1 : y1 < 2 ^ 32) (hy0 : y0 < 2 ^ 32)
    (ht : t = x1 * y0 + x0 * y0 / 2 ^ 32 + x0 * y1 % 2 ^ 32) :
    t < 2 ^ 64 ∧ x1 * y1 + x0 * y1 / 2 ^ 32 + t / 2 ^ 32 < 2 ^ 64 ∧
    (x1 * y1 + x0 * y1 / 2 ^ 32 + t / 2 ^ 32) * 2 ^ 64 + (t % 2 ^ 32 * 2 ^ 32 + x0 * y0 % 2 ^ 32) =
      (x1 * 2 ^ 32 + x0) * (y1 * 2 ^ 32 + y0) := by
  have hxy : (x1 * 2 ^ 32 + x0) * (y1 * 2 ^ 32 + y0) =
      x1 * y1 * 2 ^ 64 + (x1 * y0 + x0 * y1) * 2 ^ 32 + x0 * y0 := by ring
  have hfull : (x1 * 2 ^ 32 + x0) * (y1 * 2 ^ 32 + y0) < 2 ^ 64 * 2 ^ 64 :=
    Nat.mul_lt_mul'' (by omega) (by omega)
  rw [hxy] at hfull
  have h₁ := mul_bound hx1 hy0
  have h2 := mul_bound hx0 hy0
  have h3 := mul_bound hx0 hy1
  rw [hxy]
  generalize x1 * y1 = p11 at *
  generalize x1 * y0 = p10 at *
  generalize x0 * y1 = p01 at *
  generalize x0 * y0 = p00 at *
  refine ⟨?_, ?_, ?_⟩
  · omega
  · omega
  · omega

/-- A register gets a new value. -/
def setLane (dst : Reg) (v : BitVec 64) (L : Lane Reg (BitVec 64)) : Lane Reg (BitVec 64) :=
  ⟨Function.update L.reg dst v, L.flag⟩

theorem apply_toReg (dst : Reg) (v : BitVec 64) (L : Lane Reg (BitVec 64)) :
    (Effect.toReg dst v).apply L = setLane dst v L := rfl

@[simp] theorem flag_setLane (dst : Reg) (v : BitVec 64) (L : Lane Reg (BitVec 64)) :
    (setLane dst v L).flag = L.flag := rfl

/-- The product of two dwords. -/
def mulDwords (u v : BitVec 32) : BitVec 64 := u.setWidth 64 * v.setWidth 64

theorem toNat_wide (v : BitVec 32) : (v.setWidth 64).toNat = v.toNat := by
  rw [BitVec.toNat_setWidth, Nat.mod_eq_of_lt (lt_trans v.isLt (by norm_num))]

theorem toNat_mulDwords (u v : BitVec 32) : (mulDwords u v).toNat = u.toNat * v.toNat := by
  have := mul_bound u.isLt v.isLt
  rw [mulDwords, BitVec.toNat_mul, toNat_wide, toNat_wide, Nat.mod_eq_of_lt (by omega)]

theorem toNat_low (v : BitVec 64) : (Half.low.get v).toNat = v.toNat % 2 ^ 32 := by
  simp [Half.get]

theorem toNat_high (v : BitVec 64) : (Half.high.get v).toNat = v.toNat / 2 ^ 32 := by
  have := v.isLt
  simp only [Half.get, BitVec.toNat_setWidth, BitVec.toNat_ushiftRight, Nat.shiftRight_eq_div_pow]
  omega

theorem toNat_set_high (v : BitVec 64) (d : BitVec 32) :
    (Half.high.set v d).toNat = d.toNat * 2 ^ 32 + v.toNat % 2 ^ 32 := by
  rw [Half.set, BitVec.toNat_append, ← Nat.shiftLeft_add_eq_or_of_lt (v.extractLsb' 0 32).isLt,
    Nat.shiftLeft_eq, BitVec.extractLsb'_toNat]
  rfl

/-- What `calculateFullU64MUL` does in an enabled lane. -/
def fullMulLane (src0 src1 : Reg) (L : Lane Reg (BitVec 64)) : Lane Reg (BitVec 64) :=
  let L := setLane .dst_l (mulDwords (Half.low.get (L.reg src0)) (Half.low.get (L.reg src1))) L
  let L := setLane .dst_h (mulDwords (Half.high.get (L.reg src0)) (Half.high.get (L.reg src1))) L
  let L := setLane .tmp0 (mulDwords (Half.low.get (L.reg src0)) (Half.high.get (L.reg src1))) L
  let L := setLane .tmp1 (mulDwords (Half.high.get (L.reg src0)) (Half.low.get (L.reg src1))) L
  let L := setLane .tmp1 (L.reg .tmp1 + (Half.high.get (L.reg .dst_l)).setWidth 64) L
  let L := setLane .tmp1 (L.reg .tmp1 + (Half.low.get (L.reg .tmp0)).setWidth 64) L
  let L := setLane .dst_h (L.reg .dst_h + (Half.high.get (L.reg .tmp0)).setWidth 64) L
  let L := setLane .tmp0 (L.reg .tmp1 <<< 32) L
  let L := setLane .dst_l (Half.high.set (L.reg .dst_l) (Half.high.get (L.reg .tmp0))) L
  let L := setLane .tmp0 (L.reg .tmp1 >>> 32) L
  setLane .dst_h (L.reg .dst_h + L.reg .tmp0) L

variable {mask : ℕ → Bool} {s : State} {l : ℕ} {curr : Control}

theorem lane_full (hw : Whole curr) (hl : l < curr.execWidth) (hp : curr.predicated = false)
    (hon : (curr.noMask || mask l) = true) (src0 src1 : Reg) :
    (run Op.eval mask (calculateFullU64MUL curr src0 src1 .dst_h .dst_l .tmp0 .tmp1) s).lane l =
      fullMulLane src0 src1 (s.lane l) := by
  simp only [calculateFullU64MUL, run_cons, run_nil, lane_op hw.fits hl, On, hp, hon,
    Bool.not_false, Bool.true_or, Bool.and_true, if_true]
  rfl

/-- Low times high, plus what is carried from the low dwords. -/
def middle (x y : BitVec 64) : BitVec 64 :=
  mulDwords (Half.high.get x) (Half.low.get y) +
    (Half.high.get (mulDwords (Half.low.get x) (Half.low.get y))).setWidth 64 +
    (Half.low.get (mulDwords (Half.low.get x) (Half.high.get y))).setWidth 64

theorem fullMulLane_regs {src0 src1 : Reg} (L : Lane Reg (BitVec 64))
    (h0 : src0 ∉ [.dst_h, .dst_l, .tmp0, .tmp1]) (h1 : src1 ∉ [.dst_h, .dst_l, .tmp0, .tmp1]) :
    let x := L.reg src0
    let y := L.reg src1
    (fullMulLane src0 src1 L).reg .dst_h = mulDwords (Half.high.get x) (Half.high.get y) +
        (Half.high.get (mulDwords (Half.low.get x) (Half.high.get y))).setWidth 64 +
        middle x y >>> 32 ∧
    (fullMulLane src0 src1 L).reg .dst_l =
      Half.high.set (mulDwords (Half.low.get x) (Half.low.get y))
        (Half.high.get (middle x y <<< 32)) ∧
    ∀ r ∉ [.dst_h, .dst_l, .tmp0, .tmp1], (fullMulLane src0 src1 L).reg r = L.reg r := by
  simp only [List.mem_cons, List.not_mem_nil, or_false, not_or] at h0 h1
  obtain ⟨h0h, h0l, h0t, h0u⟩ := h0
  obtain ⟨h1h, h1l, h1t, h1u⟩ := h1
  refine ⟨?_, ?_, ?_⟩
  · simp [fullMulLane, setLane, Function.update, middle, h0h, h0l, h0t, h1h, h1l, h1t]
  · simp [fullMulLane, setLane, Function.update, middle, h0h, h0l, h0t, h1h, h1l, h1t]
  · intro r hr
    simp only [List.mem_cons, List.not_mem_nil, or_false, not_or] at hr
    obtain ⟨hh, hl, ht, hu⟩ := hr
    simp [fullMulLane, setLane, Function.update, hh, hl, ht, hu]

theorem toNat_middle (x y : BitVec 64) :
    (middle x y).toNat = x.toNat / 2 ^ 32 * (y.toNat % 2 ^ 32) +
      x.toNat % 2 ^ 32 * (y.toNat % 2 ^ 32) / 2 ^ 32 +
      x.toNat % 2 ^ 32 * (y.toNat / 2 ^ 32) % 2 ^ 32 := by
  have hx := x.isLt
  have hy := y.isLt
  obtain ⟨hlt, -, -⟩ := fullU64_arith (x.toNat / 2 ^ 32) (x.toNat % 2 ^ 32) (y.toNat / 2 ^ 32)
    (y.toNat % 2 ^ 32) (by omega) (by omega) (by omega) (by omega) rfl
  simp only [middle, BitVec.toNat_add, toNat_wide, toNat_mulDwords, toNat_low, toNat_high]
  rw [Nat.mod_add_mod, Nat.mod_eq_of_lt hlt]

/-- `calculateFullU64MUL` computes the whole product. -/
theorem fullMulLane_spec {src0 src1 : Reg} (L : Lane Reg (BitVec 64))
    (h0 : src0 ∉ [.dst_h, .dst_l, .tmp0, .tmp1]) (h1 : src1 ∉ [.dst_h, .dst_l, .tmp0, .tmp1]) :
    ((fullMulLane src0 src1 L).reg .dst_h).toNat * 2 ^ 64 +
      ((fullMulLane src0 src1 L).reg .dst_l).toNat =
      (L.reg src0).toNat * (L.reg src1).toNat := by
  obtain ⟨hh, hl, -⟩ := fullMulLane_regs L h0 h1
  have hx := (L.reg src0).isLt
  have hy := (L.reg src1).isLt
  obtain ⟨htlt, hhlt, heq⟩ := fullU64_arith ((L.reg src0).toNat / 2 ^ 32)
    ((L.reg src0).toNat % 2 ^ 32) ((L.reg src1).toNat / 2 ^ 32) ((L.reg src1).toNat % 2 ^ 32)
    (by omega) (by omega) (by omega) (by omega) (toNat_middle (L.reg src0) (L.reg src1))
  have hhigh : ((fullMulLane src0 src1 L).reg .dst_h).toNat =
      (L.reg src0).toNat / 2 ^ 32 * ((L.reg src1).toNat / 2 ^ 32) +
        (L.reg src0).toNat % 2 ^ 32 * ((L.reg src1).toNat / 2 ^ 32) / 2 ^ 32 +
        (middle (L.reg src0) (L.reg src1)).toNat / 2 ^ 32 := by
    rw [hh]
    simp only [BitVec.toNat_add, toNat_wide, toNat_mulDwords, toNat_low, toNat_high,
      BitVec.toNat_ushiftRight, Nat.shiftRight_eq_div_pow]
    rw [Nat.mod_add_mod, Nat.mod_eq_of_lt hhlt]
  have hlow : ((fullMulLane src0 src1 L).reg .dst_l).toNat =
      (middle (L.reg src0) (L.reg src1)).toNat % 2 ^ 32 * 2 ^ 32 +
        (L.reg src0).toNat % 2 ^ 32 * ((L.reg src1).toNat % 2 ^ 32) % 2 ^ 32 := by
    rw [hl, toNat_set_high, toNat_high, toNat_mulDwords, toNat_low, toNat_low,
      BitVec.toNat_shiftLeft, Nat.shiftLeft_eq]
    congr 2
    omega
  rw [hhigh, hlow, heq, Nat.div_add_mod', Nat.div_add_mod']

/-! ### Signed operands -/

/-- The sign of the product and the absolute values. -/
def signsLane (L : Lane Reg (BitVec 64)) : Lane Reg (BitVec 64) :=
  let L := setLane .tmp0 (L.reg .src0 >>> 63) L
  let L := setLane .tmp1 (L.reg .src1 >>> 63) L
  let L := setLane .sign (L.reg .tmp0 ^^^ L.reg .tmp1) L
  let L := setLane .s0_abs (L.reg .src0).abs L
  setLane .s1_abs (L.reg .src1).abs L

/-- `CMP` with `GEN_CONDITIONAL_NZ` against 0 -/
def testLane (r : Reg) (L : Lane Reg (BitVec 64)) : Lane Reg (BitVec 64) :=
  ⟨L.reg, L.reg r ≠ 0⟩

/-- The product of the absolute values; the flag is set iff the signs differ. -/
def signedLane (L : Lane Reg (BitVec 64)) : Lane Reg (BitVec 64) :=
  testLane .sign (fullMulLane .s0_abs .s1_abs (signsLane L))

/-- The negation of the whole product. -/
def negateLane (L : Lane Reg (BitVec 64)) : Lane Reg (BitVec 64) :=
  let L := setLane .dst_l (~~~ L.reg .dst_l) L
  let L := setLane .dst_h (~~~ L.reg .dst_h) L
  let L := setLane .dst_l (L.reg .dst_l + 1) L
  if L.reg .dst_l = 0 then setLane .dst_h (L.reg .dst_h + 1) L else L

theorem lane_signs (hw : Whole curr) (hl : l < curr.execWidth)
    (hp : curr.predicated = false) (hon : (curr.noMask || mask l) = true) :
    (run Op.eval mask [(.SHR .tmp0 .src0 63, curr), (.SHR .tmp1 .src1 63, curr),
      (.XOR .sign .tmp0 .tmp1, curr), (.MOVabs .s0_abs .src0, curr),
      (.MOVabs .s1_abs .src1, curr)] s).lane l = signsLane (s.lane l) := by
  simp only [run_cons, run_nil, lane_op hw.fits hl, On, hp, hon, Bool.not_false, Bool.true_or,
    Bool.and_true, if_true]
  rfl

/-- The instructions behind the multiplication. -/
theorem lane_negative (hw : Whole curr) (hl : l < curr.execWidth) (hon : mask l = true) :
    ((run Op.eval mask [(.CMP false .sign, { curr with noMask := true, predicated := false }),
      (.NOT .dst_l .dst_l, { curr with noMask := false, predicated := true }),
      (.NOT .dst_h .dst_h, { curr with noMask := false, predicated := true }),
      (.ADDimm .dst_l .dst_l 1, { curr with noMask := false, predicated := true }),
      (.CMP true .dst_l, { curr with noMask := false, predicated := true }),
      (.ADDimm .dst_h .dst_h 1, { curr with noMask := false, predicated := true })] s).lane l).reg =
      (if (testLane .sign (s.lane l)).flag then negateLane (testLane .sign (s.lane l))
        else testLane .sign (s.lane l)).reg := by
  have htest : ∀ s : State, (exec Op.eval mask (.CMP false .sign, { curr with
      noMask := true, predicated := false }) s).lane l = testLane .sign (s.lane l) := by
    intro s
    rw [lane_op (hw.fits.withMask true false) hl]
    rfl
  simp only [run_cons, run_nil, lane_op (hw.fits.withMask false true) hl, htest, On, hon,
    Bool.false_or, Bool.not_true, Bool.true_and, Op.eval, apply_toReg]
  generalize testLane .sign (s.lane l) = T
  by_cases hf : T.flag = true
  · simp only [hf, flag_setLane, if_true, Effect.apply, Effect.toFlag, Effect.regs,
      Option.getD_some, negateLane]
    split
    · rename_i hz
      rw [if_pos (by simpa using hz)]
      rfl
    · rename_i hz
      rw [if_neg (by simpa using hz)]
  · simp only [hf, Bool.false_eq_true, if_false]

/-- The product with its sign. -/
theorem reg_emit_signed (hw : Whole curr) (hl : l < curr.execWidth)
    (hp : curr.predicated = false) (hon : mask l = true) :
    ((run Op.eval mask (emitI64MULHIInstruction curr true) s).lane l).reg =
      (if (signedLane (s.lane l)).flag then negateLane (signedLane (s.lane l))
        else signedLane (s.lane l)).reg := by
  have hon' : (curr.noMask || mask l) = true := by simp [hon]
  rw [emitI64MULHIInstruction, if_neg (by decide), calculateFullS64MUL]
  rw [run_append, run_append, lane_negative hw hl hon, lane_full hw hl hp hon',
    lane_signs hw hl hp hon']
  rfl

theorem lane_emit_unsigned (hw : Whole curr) (hl : l < curr.execWidth)
    (hp : curr.predicated = false) (hon : (curr.noMask || mask l) = true) :
    (run Op.eval mask (emitI64MULHIInstruction curr false) s).lane l =
      fullMulLane .src0 .src1 (s.lane l) := by
  rw [emitI64MULHIInstruction, if_pos (by decide), lane_full hw hl hp hon]

theorem toNat_sign (x : BitVec 64) : (x >>> 63).toNat = if x.toInt < 0 then 1 else 0 := by
  have hx := x.isLt
  rw [BitVec.toNat_ushiftRight, Nat.shiftRight_eq_div_pow, BitVec.toInt_eq_toNat_cond]
  split <;> split <;> omega

theorem signsLane_regs (L : Lane Reg (BitVec 64)) :
    (signsLane L).reg .s0_abs = (L.reg .src0).abs ∧
    (signsLane L).reg .s1_abs = (L.reg .src1).abs ∧
    (signsLane L).reg .sign = L.reg .src0 >>> 63 ^^^ L.reg .src1 >>> 63 := by
  refine ⟨?_, ?_, ?_⟩ <;> simp [signsLane, setLane, Function.update]

theorem flag_signedLane (L : Lane Reg (BitVec 64)) :
    (signedLane L).flag = true ↔ ¬ ((L.reg .src0).toInt < 0 ↔ (L.reg .src1).toInt < 0) := by
  obtain ⟨-, -, hkeep⟩ := @fullMulLane_regs .s0_abs .s1_abs (signsLane L) (by decide)
    (by decide)
  have hsign : (signedLane L).flag = decide (L.reg .src0 >>> 63 ^^^ L.reg .src1 >>> 63 ≠ 0) := by
    show decide ((fullMulLane .s0_abs .s1_abs (signsLane L)).reg .sign ≠ 0) = _
    rw [hkeep .sign (by decide), (signsLane_regs L).2.2]
  rw [hsign, decide_eq_true_iff, ne_eq]
  rw [show (0 : BitVec 64) = 0#64 from rfl, BitVec.xor_eq_zero_iff, ← BitVec.toNat_inj,
    toNat_sign, toNat_sign]
  by_cases hx : (L.reg .src0).toInt < 0 <;> by_cases hy : (L.reg .src1).toInt < 0 <;>
    simp [hx, hy]

theorem product_signedLane (L : Lane Reg (BitVec 64)) :
    ((signedLane L).reg .dst_h).toNat * 2 ^ 64 + ((signedLane L).reg .dst_l).toNat =
      (L.reg .src0).toInt.natAbs * (L.reg .src1).toInt.natAbs := by
  have h := @fullMulLane_spec .s0_abs .s1_abs (signsLane L) (by decide) (by decide)
  rw [(signsLane_regs L).1, (signsLane_regs L).2.1, Saturate.toNat_abs, Saturate.toNat_abs] at h
  exact h

/-- The whole product is negated. -/
theorem product_negateLane (L : Lane Reg (BitVec 64)) :
    ((negateLane L).reg .dst_h).toNat * 2 ^ 64 + ((negateLane L).reg .dst_l).toNat =
      (2 ^ 128 - ((L.reg .dst_h).toNat * 2 ^ 64 + (L.reg .dst_l).toNat)) % 2 ^ 128 := by
  have hh := (L.reg .dst_h).isLt
  have hl := (L.reg .dst_l).isLt
  have hlow : (~~~ L.reg .dst_l + 1 = 0) ↔ (L.reg .dst_l).toNat = 0 := by
    rw [← BitVec.toNat_inj, BitVec.toNat_add, BitVec.toNat_not]
    show (_ + 1) % 2 ^ 64 = 0 ↔ _
    omega
  have hregs : (negateLane L).reg .dst_h =
      (if ~~~ L.reg .dst_l + 1 = 0 then ~~~ L.reg .dst_h + 1 else ~~~ L.reg .dst_h) ∧
      (negateLane L).reg .dst_l = ~~~ L.reg .dst_l + 1 := by
    have hreg : ∀ L' : Lane Reg (BitVec 64), (if L'.reg .dst_l = 0 then
        setLane .dst_h (L'.reg .dst_h + 1) L' else L').reg .dst_h =
          (if L'.reg .dst_l = 0 then L'.reg .dst_h + 1 else L'.reg .dst_h) ∧
        (if L'.reg .dst_l = 0 then
          setLane .dst_h (L'.reg .dst_h + 1) L' else L').reg .dst_l = L'.reg .dst_l := by
      intro L'
      split
      · simp [setLane]
      · exact ⟨rfl, rfl⟩
    rw [negateLane, (hreg _).1, (hreg _).2]
    simp [setLane, Function.update]
  have hone : (1 : BitVec 64).toNat = 1 := rfl
  rw [hregs.1, hregs.2, BitVec.toNat_add, BitVec.toNat_not, hone]
  by_cases hz : (L.reg .dst_l).toNat = 0
  · rw [if_pos (hlow.mpr hz), BitVec.toNat_add, BitVec.toNat_not, hone]
    omega
  · rw [if_neg fun h => hz (hlow.mp h), BitVec.toNat_not]
    omega

theorem toNat_negateLane (L : Lane Reg (BitVec 64)) :
    ((negateLane L).reg .dst_h).toNat =
      (2 ^ 128 - ((L.reg .dst_h).toNat * 2 ^ 64 + (L.reg .dst_l).toNat)) % 2 ^ 128 / 2 ^ 64 := by
  have hlow := ((negateLane L).reg .dst_l).isLt
  rw [← product_negateLane]
  omega

/-- An instruction leaves the high half of the product, whatever the other registers hold. -/
def Exact (mask : ℕ → Bool) (curr : Control) (l : ℕ) (signed : Bool) (x y : BitVec 64) : Prop :=
  ∀ s : State, s.reg .src0 l = x → s.reg .src1 l = y →
    (run Op.eval mask (emitI64MULHIInstruction curr signed) s).reg .dst_h l = mulHigh signed x y

/-- Gen8 is exact in every enabled lane. -/
theorem exact (hw : Whole curr) (hl : l < curr.execWidth) (hp : curr.predicated = false)
    (hon : mask l = true) (signed : Bool) (x y : BitVec 64) : Exact mask curr l signed x y := by
  rintro s rfl rfl
  cases signed with
  | false =>
    have h := @fullMulLane_spec .src0 .src1 (s.lane l) (by decide) (by decide)
    show ((run Op.eval mask (emitI64MULHIInstruction curr false) s).lane l).reg .dst_h = _
    rw [lane_emit_unsigned hw hl hp (by simp [hon])]
    apply BitVec.eq_of_toNat_eq
    rw [mulHigh, if_neg (by decide), BitVec.toNat_ofNat]
    show _ = ((s.lane l).reg .src0).toNat * ((s.lane l).reg .src1).toNat / 2 ^ 64 % 2 ^ 64
    rw [← h]
    omega
  | true =>
    have hprod := product_signedLane (s.lane l)
    have hflag := flag_signedLane (s.lane l)
    show ((run Op.eval mask (emitI64MULHIInstruction curr true) s).lane l).reg .dst_h =
      mulHigh true ((s.lane l).reg .src0) ((s.lane l).reg .src1)
    rw [reg_emit_signed hw hl hp hon]
    apply BitVec.eq_of_toNat_eq
    rw [toNat_mulHigh_signed]
    by_cases hsame : ((s.lane l).reg .src0).toInt < 0 ↔ ((s.lane l).reg .src1).toInt < 0
    · rw [if_neg fun hf => hflag.mp hf hsame, if_pos hsame, ← hprod]
      omega
    · rw [if_pos (hflag.mpr hsame), if_neg hsame, toNat_negateLane, hprod]
end Gen8

/-! ### Both generators -/

variable {mask : ℕ → Bool} {curr : Control} {l : ℕ}

/-- Both generators compute the high half, so they agree. -/
def BothExact (mask : ℕ → Bool) (curr : Control) (l : ℕ) (signed : Bool) (x y : BitVec 64) :
    Prop :=
  Gen7.Exact mask curr l signed x y ∧ Gen8.Exact mask curr l signed x y

/-- The carry that Gen7 drops is not there, and the lane is multiplied: its mask bit is that of
a lane of the first half. -/
def Clear (mask : ℕ → Bool) (curr : Control) (l : ℕ) (signed : Bool) (x y : BitVec 64) : Prop :=
  (signed = true ∨ ¬ Gen7.DroppedCarry x y) ∧ (curr.noMask || mask (l % 8)) = true

/-- **When the high half is exact**: a clear pair of operands is enough in every active lane,
and for unsigned operands it is also needed. -/
theorem mulHigh_exact (hw : Whole curr) (hl : l < curr.execWidth) (hp : curr.predicated = false)
    (hon : mask l = true) (signed : Bool) (x y : BitVec 64) :
    (Clear mask curr l signed x y → BothExact mask curr l signed x y) ∧
      (signed = false → (BothExact mask curr l signed x y ↔ Clear mask curr l signed x y)) := by
  have hon' : (curr.noMask || mask l) = true := by simp [hon]
  have hclear : Clear mask curr l signed x y → BothExact mask curr l signed x y := by
    rintro ⟨hdrop, hmul⟩
    refine ⟨?_, Gen8.exact hw hl hp hon signed x y⟩
    cases signed with
    | true => exact Gen7.exact_signed hw hl hp hon' hmul
    | false => exact (Gen7.exact_unsigned_iff hw hl hp hon' hmul).mpr (by simpa using hdrop)
  refine ⟨hclear, ?_⟩
  rintro rfl
  refine ⟨?_, hclear⟩
  rintro ⟨h7, -⟩
  by_cases hmul : (curr.noMask || mask (l % 8)) = true
  · exact ⟨.inr ((Gen7.exact_unsigned_iff hw hl hp hon' hmul).mp h7), hmul⟩
  · exact absurd h7 (Gen7.not_exact_of_skipped hw hl hp hon' (by simpa using hmul))

/-- Signed operands in a lane of the first half. -/
theorem mulHigh_exact_negative :
    BothExact (fun _ => true) ⟨16, 0, 0, false, false⟩ 3 true (-1) 5 :=
  (mulHigh_exact ⟨by decide, rfl, rfl⟩ (by decide) rfl rfl true (-1) 5).1
    ⟨.inl rfl, rfl⟩

/-- The largest operand times `0x2ffffffff` drops a carry on Gen7, with all lanes active. -/
theorem mulHigh_dropped :
    ¬ BothExact (fun _ => true) ⟨8, 0, 0, false, false⟩ 0 false 0xffffffffffffffff 0x2ffffffff := by
  rintro ⟨h7, -⟩
  have hdrop : Gen7.DroppedCarry 0xffffffffffffffff 0x2ffffffff := by decide
  exact (Gen7.exact_unsigned_iff ⟨by decide, rfl, rfl⟩ (by decide) rfl rfl rfl).mp h7 hdrop

end MulHigh

end Backend
