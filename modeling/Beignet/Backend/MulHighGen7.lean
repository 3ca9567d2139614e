/-
The high half of a 64-bit product on Gen7.

Each helper of the emitted sequence is a function on one lane; the lanes of the second half are
multiplied under the mask bits of the first half (`lane_I32FullMult`).  `I64FullAdd` loses the
carry out of its last addition, so the product comes out exact but for one carry
(`product_fullMultLane`), which signed operands never reach (`not_droppedCarry_of_half`).

* `exact_unsigned_iff`, `exact_signed` — when an enabled lane gets the high half.
-/
import Beignet.Backend.MulHigh

set_option linter.constructorNameAsVariable false

namespace Backend

namespace MulHigh

open Simd

/-! ### Longs in dwords -/

/-- `I64FullAdd` on numbers: a carry out of the last addition is lost. -/
theorem fullAdd_arith {u1 u0 v1 v0 : ℕ} (hu1 : u1 < 2 ^ 32) (hu0 : u0 < 2 ^ 32)
    (hv1 : v1 < 2 ^ 32) (hv0 : v0 < 2 ^ 32) :
    ((u1 + v1) / 2 ^ 32 * 2 ^ 32 + ((u1 + v1) % 2 ^ 32 + (u0 + v0) / 2 ^ 32) % 2 ^ 32) * 2 ^ 32 +
      (u0 + v0) % 2 ^ 32 +
      (if u1 + v1 = 2 ^ 32 - 1 ∧ 2 ^ 32 ≤ u0 + v0 then 2 ^ 64 else 0) =
      (u1 * 2 ^ 32 + u0) + (v1 * 2 ^ 32 + v0) := by
  by_cases hcarry : 2 ^ 32 ≤ u0 + v0
  · by_cases hfull : u1 + v1 = 2 ^ 32 - 1
    · rw [if_pos ⟨hfull, hcarry⟩]
      omega
    · rw [if_neg fun h => hfull h.1]
      omega
  · rw [if_neg fun h => hcarry h.2]
    omega

/-- A dword is added to a long. -/
theorem addLow_arith {p e : ℕ} (h : p + e < 2 ^ 64) :
    (p / 2 ^ 32 + (p % 2 ^ 32 + e) / 2 ^ 32) % 2 ^ 32 * 2 ^ 32 + (p % 2 ^ 32 + e) % 2 ^ 32 =
      p + e := by
  omega

theorem mul_bound {u v : ℕ} (hu : u < 2 ^ 32) (hv : v < 2 ^ 32) :
    u * v + 2 ^ 33 ≤ 2 ^ 64 + 1 := by
  have : u * v ≤ (2 ^ 32 - 1) * (2 ^ 32 - 1) := Nat.mul_le_mul (by omega) (by omega)
  omega

/-- The two dwords of a long. -/
theorem div_mod_of_parts {q r : ℕ} (hr : r < 2 ^ 32) :
    (q * 2 ^ 32 + r) / 2 ^ 32 = q ∧ (q * 2 ^ 32 + r) % 2 ^ 32 = r := by
  omega

/-- A product of dwords is added to a long. -/
theorem addHigh_arith {e f p : ℕ} (hf : f < 2 ^ 32) (h : e * 2 ^ 32 + f + p < 2 ^ 64) :
    ((e + p / 2 ^ 32) % 2 ^ 32 + (f + p % 2 ^ 32) / 2 ^ 32) % 2 ^ 32 * 2 ^ 32 +
      (f + p % 2 ^ 32) % 2 ^ 32 = e * 2 ^ 32 + f + p := by
  omega

/-- The middle part `a * d + b * c`, with the carry of `b * d`, loses a carry. -/
def droppedCarry (a b c d : ℕ) : Prop :=
  (a * d + b * d / 2 ^ 32) / 2 ^ 32 + b * c / 2 ^ 32 = 2 ^ 32 - 1 ∧
    2 ^ 32 ≤ (a * d + b * d / 2 ^ 32) % 2 ^ 32 + b * c % 2 ^ 32

instance (a b c d : ℕ) : Decidable (droppedCarry a b c d) :=
  inferInstanceAs (Decidable (_ ∧ _))

/-- The schoolbook product of two longs, as `I64FullMult` computes it. -/
theorem fullMult_arith {a b c d : ℕ} (ha : a < 2 ^ 32) (hb : b < 2 ^ 32) (hc : c < 2 ^ 32)
    (hd : d < 2 ^ 32) {f2 g2 e4 f4 g4 e6 f6 : ℕ}
    (hf2 : f2 = (a * d / 2 ^ 32 + (a * d % 2 ^ 32 + b * d / 2 ^ 32) / 2 ^ 32) % 2 ^ 32)
    (hg2 : g2 = (a * d % 2 ^ 32 + b * d / 2 ^ 32) % 2 ^ 32)
    (he4 : e4 = (f2 + b * c / 2 ^ 32) / 2 ^ 32)
    (hf4 : f4 = ((f2 + b * c / 2 ^ 32) % 2 ^ 32 + (g2 + b * c % 2 ^ 32) / 2 ^ 32) % 2 ^ 32)
    (hg4 : g4 = (g2 + b * c % 2 ^ 32) % 2 ^ 32)
    (he6 : e6 = ((e4 + a * c / 2 ^ 32) % 2 ^ 32 + (f4 + a * c % 2 ^ 32) / 2 ^ 32) % 2 ^ 32)
    (hf6 : f6 = (f4 + a * c % 2 ^ 32) % 2 ^ 32) :
    ((e6 * 2 ^ 32 + f6) * 2 ^ 32 + g4) * 2 ^ 32 + b * d % 2 ^ 32 +
      (if droppedCarry a b c d then 2 ^ 96 else 0) = (a * 2 ^ 32 + b) * (c * 2 ^ 32 + d) := by
  have hxy : (a * 2 ^ 32 + b) * (c * 2 ^ 32 + d) =
      a * c * 2 ^ 64 + (a * d + b * c) * 2 ^ 32 + b * d := by ring
  have hfull : (a * 2 ^ 32 + b) * (c * 2 ^ 32 + d) < 2 ^ 64 * 2 ^ 64 :=
    Nat.mul_lt_mul'' (by omega) (by omega)
  rw [hxy] at hfull
  rw [hxy]
  have hP : f2 * 2 ^ 32 + g2 = a * d + b * d / 2 ^ 32 := by
    have hlt : a * d + b * d / 2 ^ 32 < 2 ^ 64 := by
      have hbd := mul_bound hb hd
      have had := mul_bound ha hd
      have : b * d / 2 ^ 32 < 2 ^ 32 := Nat.div_lt_of_lt_mul (by linarith only [hbd])
      linarith only [had, this]
    rw [hf2, hg2]
    exact addLow_arith hlt
  have hf2lt : f2 < 2 ^ 32 := hf2 ▸ Nat.mod_lt _ (by norm_num)
  have hg2lt : g2 < 2 ^ 32 := hg2 ▸ Nat.mod_lt _ (by norm_num)
  have hf4lt : f4 < 2 ^ 32 := hf4 ▸ Nat.mod_lt _ (by norm_num)
  have hbc1 : b * c / 2 ^ 32 < 2 ^ 32 :=
    Nat.div_lt_of_lt_mul (by linarith only [mul_bound hb hc])
  have hsum := fullAdd_arith hf2lt hg2lt hbc1 (Nat.mod_lt (b * c) (by norm_num))
  rw [← he4, ← hf4, ← hg4, hP] at hsum
  have hdrop : (f2 + b * c / 2 ^ 32 = 2 ^ 32 - 1 ∧ 2 ^ 32 ≤ g2 + b * c % 2 ^ 32) ↔
      droppedCarry a b c d := by
    rw [droppedCarry, ← hP, (div_mod_of_parts hg2lt).1, (div_mod_of_parts hg2lt).2]
  have hbc := Nat.div_add_mod' (b * c) (2 ^ 32)
  have hbd := Nat.div_add_mod' (b * d) (2 ^ 32)
  -- the upper half of the product fits in a long
  have hfit : e4 * 2 ^ 32 + f4 + a * c < 2 ^ 64 := by
    by_contra hge
    have hle : (e4 * 2 ^ 32 + f4) * 2 ^ 32 ≤ a * d + b * d / 2 ^ 32 + b * c := by
      split_ifs at hsum <;> linarith only [hsum, hbc]
    linarith only [hge, hle, hfull, Nat.div_mul_le_self (b * d) (2 ^ 32)]
  have hhigh : e6 * 2 ^ 32 + f6 = e4 * 2 ^ 32 + f4 + a * c := by
    rw [he6, hf6]
    exact addHigh_arith hf4lt hfit
  rw [hhigh]
  by_cases hd : droppedCarry a b c d
  · rw [if_pos hd]
    rw [if_pos (hdrop.mpr hd)] at hsum
    linarith only [hsum, hbc, hbd]
  · rw [if_neg hd]
    rw [if_neg fun h => hd (hdrop.mp h)] at hsum
    linarith only [hsum, hbc, hbd]

/-- The sign and the size of a product. -/
theorem mul_eq_natAbs (x y : ℤ) :
    x * y = if (x < 0 ↔ y < 0) then ((x.natAbs * y.natAbs : ℕ) : ℤ)
      else -((x.natAbs * y.natAbs : ℕ) : ℤ) := by
  rw [Nat.cast_mul, Int.natCast_natAbs, Int.natCast_natAbs]
  by_cases hx : x < 0
  · by_cases hy : y < 0
    · rw [if_pos (by simp [hx, hy]), abs_of_neg hx, abs_of_neg hy, neg_mul_neg]
    · rw [if_neg (by simp [hx, hy]), abs_of_neg hx, abs_of_nonneg (not_lt.mp hy), neg_mul, neg_neg]
  · by_cases hy : y < 0
    · rw [if_neg (by simp [hx, hy]), abs_of_nonneg (not_lt.mp hx), abs_of_neg hy, mul_neg, neg_neg]
    · rw [if_pos (by simp [hx, hy]), abs_of_nonneg (not_lt.mp hx), abs_of_nonneg (not_lt.mp hy)]

theorem natAbs_toInt_le (x : BitVec 64) : x.toInt.natAbs ≤ 2 ^ 63 := by
  have := x.toInt_lt
  have := x.le_toInt
  omega

/-- A signed product of 128 bits from its sign and its size. -/
theorem signed_product (x y : BitVec 64) :
    ((if (x.toInt < 0 ↔ y.toInt < 0) then x.toInt.natAbs * y.toInt.natAbs
      else (2 ^ 128 - x.toInt.natAbs * y.toInt.natAbs) % 2 ^ 128 : ℕ) : ℤ) =
      x.toInt * y.toInt % 2 ^ 128 := by
  have hp := Nat.mul_le_mul (natAbs_toInt_le x) (natAbs_toInt_le y)
  rw [mul_eq_natAbs]
  generalize x.toInt.natAbs * y.toInt.natAbs = p at *
  split
  · omega
  · omega

theorem toNat_mulHigh_signed (x y : BitVec 64) :
    (mulHigh true x y).toNat =
      if (x.toInt < 0 ↔ y.toInt < 0) then x.toInt.natAbs * y.toInt.natAbs / 2 ^ 64
      else (2 ^ 128 - x.toInt.natAbs * y.toInt.natAbs) % 2 ^ 128 / 2 ^ 64 := by
  have hp := Nat.mul_le_mul (natAbs_toInt_le x) (natAbs_toInt_le y)
  rw [mulHigh, if_pos rfl, BitVec.toNat_ofInt, mul_eq_natAbs]
  generalize x.toInt.natAbs * y.toInt.natAbs = p at *
  split
  · omega
  · omega

namespace Gen7

variable {mask : ℕ → Bool} {s : State} {l : ℕ} {curr : Control}

/-! ### One lane -/

/-- Two sources and a carry. -/
def carryLane (dest src0 src1 : Reg) (L : Lane Reg (BitVec 32)) : Lane Reg (BitVec 32) :=
  ⟨Function.update (Function.update L.reg dest (L.reg src0 + L.reg src1)) src1
    (BitVec.ofNat 32 (((L.reg src0).toNat + (L.reg src1).toNat) / 2 ^ 32)), L.flag⟩

/-- The product of two dwords, in two dwords. -/
def multLane (high low src0 src1 : Reg) (L : Lane Reg (BitVec 32)) : Lane Reg (BitVec 32) :=
  let product := (L.reg src0).toNat * (L.reg src1).toNat
  ⟨Function.update (Function.update L.reg high (BitVec.ofNat 32 (product / 2 ^ 32))) low
    (BitVec.ofNat 32 product), L.flag⟩

/-- `ADDC` and the move of the carry, on the lanes of one half. -/
theorem lane_addc_pair {dest src0 src1 : Reg} :
    (run Op.eval mask [(.ADDC dest src0 src1, curr), (.MOVacc src1, curr)] s).lane l =
      if curr.suboffset ≤ l && curr.enabled mask s.flag (l - curr.suboffset) then
        carryLane dest src0 src1 (s.lane l)
      else s.lane l := by
  have hflag : (exec Op.eval mask (.ADDC dest src0 src1, curr) s).flag = s.flag :=
    flag_exec fun _ => rfl
  rw [run_cons, run_cons, run_nil, lane_exec fun _ => rfl, lane_exec fun _ => rfl, hflag]
  by_cases hle : curr.suboffset ≤ l
  · by_cases hon : curr.enabled mask s.flag (l - curr.suboffset) = true
    · have hacc : (exec Op.eval mask (.ADDC dest src0 src1, curr) s).acc (l - curr.suboffset) =
          ((((s.lane l).reg src0).toNat + ((s.lane l).reg src1).toNat) / 2 ^ 32) := by
        rw [acc_exec hon, channelEffect_lane hle]
        rfl
      simp only [hle, hon, decide_true, Bool.and_self, if_true]
      rw [channelEffect_lane (i := (Op.ADDC dest src0 src1, curr)) hle,
        channelEffect_lane (i := (Op.MOVacc src1, curr)) hle, hacc]
      rfl
    · simp [hon]
  · simp [hle]

theorem acc_MACH (high src0 src1 : Reg) (r : Reg → BitVec 32) (acc d : ℕ) :
    ((Op.MACH high src0 src1).eval r acc).acc.getD d =
      (acc + (r src0).toNat * ((r src1).toNat / 2 ^ 16) * 2 ^ 16) % 2 ^ 32 :=
  Option.getD_some

/-- The multiplication of one half. -/
theorem lane_mult_triple {high low src0 src1 : Reg} :
    (run Op.eval mask [(.MUL src0 src1, curr), (.MACH high src0 src1, curr),
      (.MOVacc low, curr)] s).lane l =
      if curr.suboffset ≤ l && curr.enabled mask s.flag (l - curr.suboffset) then
        multLane high low src0 src1 (s.lane l)
      else s.lane l := by
  set s1 := exec Op.eval mask (.MUL src0 src1, curr) s with hs1
  set s2 := exec Op.eval mask (.MACH high src0 src1, curr) s1 with hs2
  have hflag1 : s1.flag = s.flag := flag_exec fun _ => rfl
  have hflag2 : s2.flag = s.flag := (flag_exec fun _ => rfl).trans hflag1
  -- the first instruction touches the accumulator only
  have hlane1 : s1.lane l = s.lane l := by
    rw [hs1, lane_exec fun _ => rfl]
    split
    · rfl
    · rfl
  rw [run_cons, run_cons, run_cons, run_nil, ← hs1, ← hs2, lane_exec fun _ => rfl, hflag2]
  by_cases hle : curr.suboffset ≤ l
  · by_cases hon : curr.enabled mask s.flag (l - curr.suboffset) = true
    · have hacc1 : s1.acc (l - curr.suboffset) =
          ((s.lane l).reg src0).toNat * (((s.lane l).reg src1).toNat % 2 ^ 16) := by
        rw [hs1, acc_exec hon, channelEffect_lane hle]
        rfl
      have hproduct : s1.acc (l - curr.suboffset) +
          ((s.lane l).reg src0).toNat * (((s.lane l).reg src1).toNat / 2 ^ 16) * 2 ^ 16 =
            ((s.lane l).reg src0).toNat * ((s.lane l).reg src1).toNat := by
        rw [hacc1, Nat.mul_assoc, ← Nat.mul_add, Nat.mod_add_div']
      have hacc2 : s2.acc (l - curr.suboffset) =
          ((s.lane l).reg src0).toNat * ((s.lane l).reg src1).toNat % 2 ^ 32 := by
        rw [hs2, acc_exec (by rw [hflag1]; exact hon), channelEffect_lane hle, hlane1,
          ← hproduct]
        exact acc_MACH ..
      have hlane2 : s2.lane l = ⟨Function.update (s.lane l).reg high (BitVec.ofNat 32
          (((s.lane l).reg src0).toNat * ((s.lane l).reg src1).toNat / 2 ^ 32)),
            (s.lane l).flag⟩ := by
        rw [hs2, lane_exec fun _ => rfl, hflag1, hlane1, channelEffect_lane hle, hlane1,
          ← hproduct]
        simp only [hle, hon, decide_true, Bool.and_self, if_true]
        rfl
      simp only [hle, hon, decide_true, Bool.and_self, if_true]
      rw [channelEffect_lane (i := (Op.MOVacc low, curr)) hle, hacc2, hlane2]
      have hlow : ∀ n : ℕ, BitVec.ofNat 32 (n % 2 ^ 32) = BitVec.ofNat 32 n := by
        intro n
        exact BitVec.eq_of_toNat_eq (by simp)
      simp only [Op.eval, Effect.apply, Effect.regs, Effect.toReg, multLane, hlow,
        Option.getD_none]
    · have hlane2 : s2.lane l = s.lane l := by
        rw [hs2, lane_exec fun _ => rfl, hflag1, hlane1]
        simp [hon]
      simp [hon, hlane2]
  · have hlane2 : s2.lane l = s.lane l := by
      rw [hs2, lane_exec fun _ => rfl, hflag1, hlane1]
      simp [hle]
    simp [hle, hlane2]

/-! ### The helpers in one lane -/

theorem lane_addWithCarry (hw : Whole curr) (hl : l < curr.execWidth) {dest src0 src1 : Reg} :
    (run Op.eval mask (addWithCarry curr dest src0 src1) s).lane l =
      if On mask curr l (s.lane l) then carryLane dest src0 src1 (s.lane l) else s.lane l := by
  obtain h8 | h16 := hw.execWidth
  · rw [h8] at hl
    simp only [addWithCarry, h8, Nat.reduceEqDiff, if_false,
      List.append_nil, lane_addc_pair]
    simp [hw.suboffset, hw.quarter, Control.enabled, On, hl, State.lane]
  · rw [h16] at hl
    simp only [addWithCarry, h16, if_true, run_append, lane_addc_pair]
    -- each half leaves the lanes of the other one alone
    have hflag : (run Op.eval mask [(Op.ADDC dest src0 src1, { curr with execWidth := 8 }),
        (Op.MOVacc src1, { curr with execWidth := 8 })] s).flag = s.flag := by
      rw [run_cons, run_cons, run_nil, flag_exec fun _ => rfl, flag_exec fun _ => rfl]
    rw [hflag]
    by_cases hlow : l < 8
    · have : ¬ 8 ≤ l := by omega
      simp [hw.suboffset, hw.quarter, Control.enabled, On, hlow, State.lane, this]
    · have hle : 8 ≤ l := by omega
      have hlt : l - 8 < 8 := by omega
      simp [hw.suboffset, hw.quarter, Control.enabled, On, hlow, hle, hlt, State.lane]

/-- The second half of the lanes is masked by the bits of the first. -/
theorem lane_I32FullMult (hw : Whole curr) (hl : l < curr.execWidth) {high low src0 src1 : Reg}
    (hp : curr.predicated = false) :
    (run Op.eval mask (I32FullMult curr high low src0 src1) s).lane l =
      if curr.noMask || mask (l % 8) then multLane high low src0 src1 (s.lane l)
      else s.lane l := by
  obtain h8 | h16 := hw.execWidth
  · rw [h8] at hl
    simp only [I32FullMult, h8, Nat.reduceDiv, List.range_one, List.flatMap_cons,
      List.flatMap_nil, List.append_nil, lane_mult_triple]
    simp [hw.quarter, Control.enabled, hl, hp, Nat.mod_eq_of_lt hl]
  · rw [h16] at hl
    have hrange : List.range 2 = [0, 1] := rfl
    simp only [I32FullMult, h16, Nat.reduceDiv, hrange, List.flatMap_cons,
      List.flatMap_nil, List.append_nil, run_append, lane_mult_triple]
    by_cases hlow : l < 8
    · have : ¬ 8 ≤ l := by omega
      simp [hw.quarter, Control.enabled, hlow, hp, this, Nat.mod_eq_of_lt hlow]
    · have hle : 8 ≤ l := by omega
      have hlt : l - 8 < 8 := by omega
      have hmod : l % 8 = l - 8 := by omega
      simp [hw.quarter, Control.enabled, hlow, hle, hlt, hp, hmod]

/-! ### The product in one lane -/

/-- The registers of a lane as numbers. -/
def vals (L : Lane Reg (BitVec 32)) (r : Reg) : ℕ := (L.reg r).toNat

theorem vals_lt (L : Lane Reg (BitVec 32)) (r : Reg) : vals L r < 2 ^ 32 := (L.reg r).isLt

/-- `ADD` -/
def addLane (dest src0 src1 : Reg) (L : Lane Reg (BitVec 32)) : Lane Reg (BitVec 32) :=
  ⟨Function.update L.reg dest (L.reg src0 + L.reg src1), L.flag⟩

theorem vals_addLane (dest src0 src1 : Reg) (L : Lane Reg (BitVec 32)) :
    vals (addLane dest src0 src1 L) =
      Function.update (vals L) dest ((vals L src0 + vals L src1) % 2 ^ 32) := by
  funext r
  by_cases h : r = dest
  · subst h
    simp [vals, addLane]
  · simp [vals, addLane, h]

theorem vals_carryLane (dest src0 src1 : Reg) (L : Lane Reg (BitVec 32)) :
    vals (carryLane dest src0 src1 L) =
      Function.update (Function.update (vals L) dest ((vals L src0 + vals L src1) % 2 ^ 32)) src1
        ((vals L src0 + vals L src1) / 2 ^ 32) := by
  have hcarry : (vals L src0 + vals L src1) / 2 ^ 32 < 2 ^ 32 := by
    have := vals_lt L src0
    have := vals_lt L src1
    omega
  funext r
  by_cases h1 : r = src1
  · subst h1
    simpa [vals, carryLane] using hcarry
  · by_cases h : r = dest
    · subst h
      simp [vals, carryLane, h1]
    · simp [vals, carryLane, h, h1]

theorem vals_multLane (high low src0 src1 : Reg) (L : Lane Reg (BitVec 32)) :
    vals (multLane high low src0 src1 L) =
      Function.update (Function.update (vals L) high (vals L src0 * vals L src1 / 2 ^ 32)) low
        (vals L src0 * vals L src1 % 2 ^ 32) := by
  have hhigh : vals L src0 * vals L src1 / 2 ^ 32 < 2 ^ 32 :=
    Nat.div_lt_of_lt_mul (by linarith [mul_bound (vals_lt L src0) (vals_lt L src1)])
  funext r
  by_cases h1 : r = low
  · subst h1
    simp [vals, multLane]
  · by_cases h : r = high
    · subst h
      simpa [vals, multLane, h1] using hhigh
    · simp [vals, multLane, h, h1]

/-- The four dwords that `I64FullMult` leaves in `e`, `f`, `g` and `h`. -/
def product (v : Reg → ℕ) : ℕ :=
  ((v .e * 2 ^ 32 + v .f) * 2 ^ 32 + v .g) * 2 ^ 32 + v .h

/-- What `I64FullMult` does in an enabled lane. -/
def fullMultLane (L : Lane Reg (BitVec 32)) : Lane Reg (BitVec 32) :=
  let L := multLane .f .g .a .d (multLane .e .h .b .d L)
  let L := multLane .e .d .b .c (carryLane .f .f .e (carryLane .g .g .e L))
  let L := multLane .b .d .a .c (addLane .f .f .d (carryLane .f .f .e (carryLane .g .g .d L)))
  addLane .e .e .d (carryLane .e .e .b (carryLane .f .f .d L))

theorem lane_I64FullMult (hw : Whole curr) (hl : l < curr.execWidth)
    (hp : curr.predicated = false) (hon : (curr.noMask || mask l) = true)
    (hmul : (curr.noMask || mask (l % 8)) = true) :
    (run Op.eval mask (I64FullMult curr .e .f .g .h .a .b .c .d) s).lane l =
      fullMultLane (s.lane l) := by
  simp only [I64FullMult, I64FullAdd, run_append, run_cons, run_nil, lane_op hw.fits hl,
    lane_addWithCarry hw hl, lane_I32FullMult hw hl hp, On, hp, hon, hmul, Bool.not_false,
    Bool.true_or, Bool.and_true, if_true]
  rfl

theorem product_fullMultLane (L : Lane Reg (BitVec 32)) :
    product (vals (fullMultLane L)) +
      (if droppedCarry (vals L .a) (vals L .b) (vals L .c) (vals L .d) then 2 ^ 96 else 0) =
      (vals L .a * 2 ^ 32 + vals L .b) * (vals L .c * 2 ^ 32 + vals L .d) := by
  have h := fullMult_arith (vals_lt L .a) (vals_lt L .b) (vals_lt L .c) (vals_lt L .d)
    rfl rfl rfl rfl rfl rfl rfl
  rw [← h]
  simp only [product, fullMultLane, vals_addLane, vals_carryLane, vals_multLane]
  simp only [Function.update, eq_rec_constant, dite_eq_ite, reduceCtorEq, if_false, if_true]

/-! ### Signs in one lane -/

/-- A register gets a new value. -/
def setLane (dst : Reg) (v : BitVec 32) (L : Lane Reg (BitVec 32)) : Lane Reg (BitVec 32) :=
  ⟨Function.update L.reg dst v, L.flag⟩

def notLane (r : Reg) (L : Lane Reg (BitVec 32)) : Lane Reg (BitVec 32) :=
  setLane r (~~~ L.reg r) L

/-- `CMP` against 0 -/
def testLane (r : Reg) (L : Lane Reg (BitVec 32)) : Lane Reg (BitVec 32) :=
  ⟨L.reg, L.reg r ≠ 0⟩

def negLane (high low tmp : Reg) (L : Lane Reg (BitVec 32)) : Lane Reg (BitVec 32) :=
  addLane high high tmp (carryLane low low tmp (setLane tmp 1 (notLane low (notLane high L))))

def absLane (sign high low tmp : Reg) (L : Lane Reg (BitVec 32)) : Lane Reg (BitVec 32) :=
  let L := testLane sign (setLane sign (L.reg high >>> 31) L)
  if L.flag then negLane high low tmp L else L

def negateLane (L : Lane Reg (BitVec 32)) : Lane Reg (BitVec 32) :=
  let L := setLane .i 1 (notLane .h (notLane .g (notLane .f (notLane .e L))))
  addLane .e .e .i (carryLane .f .f .i (carryLane .g .g .i (carryLane .h .h .i L)))

@[simp] theorem flag_setLane (r : Reg) (v : BitVec 32) (L : Lane Reg (BitVec 32)) :
    (setLane r v L).flag = L.flag := rfl

@[simp] theorem flag_notLane (r : Reg) (L : Lane Reg (BitVec 32)) :
    (notLane r L).flag = L.flag := rfl

@[simp] theorem flag_addLane (dest src0 src1 : Reg) (L : Lane Reg (BitVec 32)) :
    (addLane dest src0 src1 L).flag = L.flag := rfl

@[simp] theorem flag_carryLane (dest src0 src1 : Reg) (L : Lane Reg (BitVec 32)) :
    (carryLane dest src0 src1 L).flag = L.flag := rfl

/-- An effect that writes one register. -/
theorem apply_toReg (dst : Reg) (v : BitVec 32) (L : Lane Reg (BitVec 32)) :
    (Effect.toReg dst v).apply L = setLane dst v L := rfl

theorem lane_I64Neg (hw : Whole curr) (hl : l < curr.execWidth) {high low tmp : Reg} :
    (run Op.eval mask (I64Neg { curr with noMask := true, predicated := true } high low tmp)
      s).lane l = if (s.lane l).flag then negLane high low tmp (s.lane l) else s.lane l := by
  simp only [I64Neg, run_append, run_cons, run_nil, lane_op (hw.fits.withMask true true) hl,
    lane_addWithCarry (hw.withMask true true) hl, On, Bool.true_or, Bool.not_true, Bool.false_or,
    Bool.true_and, Op.eval, apply_toReg]
  by_cases hf : (s.lane l).flag = true
  · simp only [hf, if_true, flag_setLane, flag_carryLane]
    rfl
  · simp only [hf, Bool.false_eq_true, if_false]

theorem lane_I64ABS (hw : Whole curr) (hl : l < curr.execWidth) (hp : curr.predicated = false)
    (hon : (curr.noMask || mask l) = true) {sign high low tmp : Reg} :
    (run Op.eval mask (I64ABS curr sign high low tmp) s).lane l =
      absLane sign high low tmp (s.lane l) := by
  simp only [I64ABS, run_append, run_cons, run_nil, lane_I64Neg hw hl,
    lane_op (hw.fits.withMask true false) hl, lane_op hw.fits hl, On, hp, hon, Bool.true_or,
    Bool.not_false, Bool.true_and, if_true]
  rfl

theorem lane_negate (hw : Whole curr) (hl : l < curr.execWidth) :
    (run Op.eval mask (negate { curr with noMask := true, predicated := true }) s).lane l =
      if (s.lane l).flag then negateLane (s.lane l) else s.lane l := by
  simp only [negate, run_append, run_cons, run_nil, lane_op (hw.fits.withMask true true) hl,
    lane_addWithCarry (hw.withMask true true) hl, On, Bool.true_or, Bool.not_true, Bool.false_or,
    Bool.true_and, Op.eval, apply_toReg]
  by_cases hf : (s.lane l).flag = true
  · simp only [hf, if_true, flag_setLane, flag_carryLane]
    rfl
  · simp only [hf, Bool.false_eq_true, if_false]

/-! ### The whole instruction in one lane -/

def movLane (dst src : Reg) (L : Lane Reg (BitVec 32)) : Lane Reg (BitVec 32) :=
  setLane dst (L.reg src) L

def loadLane (L : Lane Reg (BitVec 32)) : Lane Reg (BitVec 32) :=
  movLane .d .yBottom (movLane .c .yTop (movLane .b .xBottom (movLane .a .xTop L)))

def storeLane (L : Lane Reg (BitVec 32)) : Lane Reg (BitVec 32) :=
  movLane .destBottom .f (movLane .destTop .e L)

/-- The absolute values, and the sign of the product in `i`. -/
def signsLane (L : Lane Reg (BitVec 32)) : Lane Reg (BitVec 32) :=
  let L := absLane .f .c .d .i (absLane .e .a .b .i L)
  setLane .i (L.reg .e ^^^ L.reg .f) L

/-- The flag is set iff the signs differ. -/
def signedLane (L : Lane Reg (BitVec 32)) : Lane Reg (BitVec 32) :=
  testLane .i (fullMultLane (signsLane (loadLane L)))

section Emit

variable (hw : Whole curr) (hl : l < curr.execWidth) (hp : curr.predicated = false)
  (hon : (curr.noMask || mask l) = true)

include hw hl hp hon

theorem lane_load : (run Op.eval mask [(.MOV .a .xTop, curr), (.MOV .b .xBottom, curr),
    (.MOV .c .yTop, curr), (.MOV .d .yBottom, curr)] s).lane l = loadLane (s.lane l) := by
  simp only [run_cons, run_nil, lane_op hw.fits hl, On, hp, hon, Bool.not_false, Bool.true_or,
    Bool.and_true, if_true, Op.eval, apply_toReg]
  rfl

theorem lane_store : (run Op.eval mask [(.MOV .destTop .e, curr), (.MOV .destBottom .f, curr)]
    s).lane l = storeLane (s.lane l) := by
  simp only [run_cons, run_nil, lane_op hw.fits hl, On, hp, hon, Bool.not_false, Bool.true_or,
    Bool.and_true, if_true, Op.eval, apply_toReg]
  rfl

theorem lane_signs : (run Op.eval mask (I64ABS curr .e .a .b .i ++ I64ABS curr .f .c .d .i ++
    [(Op.XOR .i .e .f, curr)]) s).lane l = signsLane (s.lane l) := by
  rw [run_append, run_append, run_cons, run_nil, lane_op hw.fits hl, lane_I64ABS hw hl hp hon,
    lane_I64ABS hw hl hp hon]
  simp only [On, hp, hon, Bool.not_false, Bool.true_or, Bool.and_true, if_true, Op.eval,
    apply_toReg]
  rfl

variable (hmul : (curr.noMask || mask (l % 8)) = true)

include hmul

theorem lane_fullProduct_unsigned :
    (run Op.eval mask (fullProduct curr false) s).lane l = fullMultLane (loadLane (s.lane l)) := by
  rw [fullProduct, if_pos (by decide), run_append, lane_I64FullMult hw hl hp hon hmul,
    lane_load hw hl hp hon]

/-- The product with its sign. -/
theorem lane_fullProduct_signed :
    (run Op.eval mask (fullProduct curr true) s).lane l =
      if (signedLane (s.lane l)).flag then negateLane (signedLane (s.lane l))
        else signedLane (s.lane l) := by
  have htest : ∀ s : State, (exec Op.eval mask (.CMP .i, { curr with
      noMask := true, predicated := false }) s).lane l = testLane .i (s.lane l) := by
    intro s
    rw [lane_op (hw.fits.withMask true false) hl]
    rfl
  rw [fullProduct, if_neg (by decide), run_append]
  simp only
  rw [run_append, run_cons, lane_negate hw hl, htest, run_append,
    lane_I64FullMult hw hl hp hon hmul, lane_signs hw hl hp hon, lane_load hw hl hp hon]
  rfl

theorem lane_emit_unsigned :
    (run Op.eval mask (emitI64MULHIInstruction curr false) s).lane l =
      storeLane (fullMultLane (loadLane (s.lane l))) := by
  rw [show emitI64MULHIInstruction curr false = fullProduct curr false ++ _ from rfl, run_append,
    lane_store hw hl hp hon, lane_fullProduct_unsigned hw hl hp hon hmul]

theorem lane_emit_signed :
    (run Op.eval mask (emitI64MULHIInstruction curr true) s).lane l =
      storeLane (if (signedLane (s.lane l)).flag then negateLane (signedLane (s.lane l))
        else signedLane (s.lane l)) := by
  rw [show emitI64MULHIInstruction curr true = fullProduct curr true ++ _ from rfl, run_append,
    lane_store hw hl hp hon, lane_fullProduct_signed hw hl hp hon hmul]

end Emit

theorem vals_setLane (dst : Reg) (v : BitVec 32) (L : Lane Reg (BitVec 32)) :
    vals (setLane dst v L) = Function.update (vals L) dst v.toNat := by
  funext r
  by_cases h : r = dst
  · subst h
    simp [vals, setLane]
  · simp [vals, setLane, h]

theorem vals_notLane (r : Reg) (L : Lane Reg (BitVec 32)) :
    vals (notLane r L) = Function.update (vals L) r (2 ^ 32 - 1 - vals L r) := by
  rw [notLane, vals_setLane, BitVec.toNat_not]
  rfl

/-- A long in two dwords. -/
def long (high low : ℕ) : ℕ := high * 2 ^ 32 + low

/-- `I64Neg` negates. -/
theorem long_negLane {high low tmp : Reg} (L : Lane Reg (BitVec 32)) (hhl : high ≠ low)
    (hht : high ≠ tmp) (hlt : low ≠ tmp) (hpos : 0 < long (vals L high) (vals L low)) :
    long (vals (negLane high low tmp L) high) (vals (negLane high low tmp L) low) =
      2 ^ 64 - long (vals L high) (vals L low) := by
  have hh := vals_lt L high
  have hl := vals_lt L low
  simp only [negLane, vals_addLane, vals_carryLane, vals_setLane, vals_notLane]
  simp [Function.update, hhl, hht, hlt, hhl.symm]
  simp only [long] at *
  omega

/-! ### Unsigned operands -/

/-- A long in two registers. -/
def operand (L : Lane Reg (BitVec 32)) (top bottom : Reg) : BitVec 64 :=
  L.reg top ++ L.reg bottom

section Values

variable (L : Lane Reg (BitVec 32))

theorem toNat_operand (top bottom : Reg) :
    (operand L top bottom).toNat = long (vals L top) (vals L bottom) := by
  rw [operand, BitVec.toNat_append, ← Nat.shiftLeft_add_eq_or_of_lt (L.reg bottom).isLt,
    Nat.shiftLeft_eq]
  rfl

/-- The operands cross with a lost carry. -/
def DroppedCarry (x y : BitVec 64) : Prop :=
  droppedCarry (x.toNat / 2 ^ 32) (x.toNat % 2 ^ 32) (y.toNat / 2 ^ 32) (y.toNat % 2 ^ 32)

instance (x y : BitVec 64) : Decidable (DroppedCarry x y) :=
  inferInstanceAs (Decidable (droppedCarry _ _ _ _))

theorem vals_storeLane :
    vals (storeLane L) .destTop = vals L .e ∧ vals (storeLane L) .destBottom = vals L .f := by
  constructor
  · simp [storeLane, movLane, vals, setLane]
  · simp [storeLane, movLane, vals, setLane]

/-- The upper half of the product is what is stored. -/
theorem toNat_storeLane :
    (operand (storeLane L) .destTop .destBottom).toNat = product (vals L) / 2 ^ 64 := by
  have hg := vals_lt L .g
  have hh := vals_lt L .h
  rw [toNat_operand, (vals_storeLane L).1, (vals_storeLane L).2]
  simp only [long, product]
  omega

theorem vals_loadLane :
    vals (loadLane L) .a = vals L .xTop ∧ vals (loadLane L) .b = vals L .xBottom ∧
      vals (loadLane L) .c = vals L .yTop ∧ vals (loadLane L) .d = vals L .yBottom := by
  refine ⟨?_, ?_, ?_, ?_⟩ <;> simp [loadLane, movLane, vals, setLane]

theorem long_div_mod (top bottom : Reg) :
    (operand L top bottom).toNat / 2 ^ 32 = vals L top ∧
      (operand L top bottom).toNat % 2 ^ 32 = vals L bottom := by
  rw [toNat_operand]
  exact div_mod_of_parts (vals_lt L bottom)

/-- The product of unsigned operands, up to the lost carry. -/
theorem product_unsigned :
    product (vals (fullMultLane (loadLane L))) +
      (if DroppedCarry (operand L .xTop .xBottom) (operand L .yTop .yBottom) then 2 ^ 96 else 0) =
      (operand L .xTop .xBottom).toNat * (operand L .yTop .yBottom).toNat := by
  have hprod := product_fullMultLane (loadLane L)
  obtain ⟨ha, hb, hc, hd⟩ := vals_loadLane L
  rw [ha, hb, hc, hd] at hprod
  have hdrop : DroppedCarry (operand L .xTop .xBottom) (operand L .yTop .yBottom) ↔
      droppedCarry (vals L .xTop) (vals L .xBottom) (vals L .yTop) (vals L .yBottom) := by
    unfold DroppedCarry
    rw [(long_div_mod L _ _).1, (long_div_mod L _ _).2, (long_div_mod L _ _).1,
      (long_div_mod L _ _).2]
  rw [toNat_operand, toNat_operand, long, long, ← hprod]
  by_cases h : droppedCarry (vals L .xTop) (vals L .xBottom) (vals L .yTop) (vals L .yBottom)
  · rw [if_pos h, if_pos (hdrop.mpr h)]
  · rw [if_neg h, if_neg fun h' => h (hdrop.mp h')]

/-- The result for unsigned operands, up to the lost carry. -/
theorem toNat_unsigned :
    (operand (storeLane (fullMultLane (loadLane L))) .destTop .destBottom).toNat +
      (if DroppedCarry (operand L .xTop .xBottom) (operand L .yTop .yBottom) then 2 ^ 32 else 0) =
      (operand L .xTop .xBottom).toNat * (operand L .yTop .yBottom).toNat / 2 ^ 64 := by
  rw [toNat_storeLane, ← product_unsigned]
  split
  · omega
  · omega

/-! ### Signed operands -/

/-- Operands of at most `2 ^ 63` lose no carry. -/
theorem not_droppedCarry_of_half {a b c d : ℕ} (hb : b < 2 ^ 32) (hd : d < 2 ^ 32)
    (ha : a ≤ 2 ^ 31) (hc : c ≤ 2 ^ 31) : ¬ droppedCarry a b c d := by
  rintro ⟨hhigh, hlow⟩
  have had : a * d ≤ 2 ^ 31 * (2 ^ 32 - 1) := Nat.mul_le_mul ha (by omega)
  have hbc : b * c ≤ (2 ^ 32 - 1) * 2 ^ 31 := Nat.mul_le_mul (by omega) hc
  have hcarry : b * d / 2 ^ 32 ≤ 2 ^ 32 - 2 := by
    have hbd := mul_bound hb hd
    omega
  -- the middle part would have to reach `2 ^ 64`
  omega

theorem flag_testLane (r : Reg) (L : Lane Reg (BitVec 32)) :
    (testLane r L).flag = true ↔ vals L r ≠ 0 := by
  rw [testLane, decide_eq_true_iff, ne_eq, ← BitVec.toNat_inj]
  rfl

theorem testLane_setLane (sign : Reg) (v : BitVec 32) (L : Lane Reg (BitVec 32)) :
    (testLane sign (setLane sign v L)).flag = decide (v ≠ 0) := by
  simp [testLane, setLane]

theorem shr_ne_zero (v : BitVec 32) : v >>> 31 ≠ 0 ↔ 2 ^ 31 ≤ v.toNat := by
  have := v.isLt
  rw [ne_eq, ← BitVec.toNat_inj, BitVec.toNat_ushiftRight, Nat.shiftRight_eq_div_pow]
  simp

theorem toInt_operand (top bottom : Reg) :
    (operand L top bottom).toInt =
      if 2 ^ 31 ≤ vals L top then (long (vals L top) (vals L bottom) : ℤ) - 2 ^ 64
      else (long (vals L top) (vals L bottom) : ℤ) := by
  have := vals_lt L bottom
  have := vals_lt L top
  rw [BitVec.toInt_eq_toNat_cond, toNat_operand]
  by_cases h : 2 ^ 31 ≤ vals L top
  · rw [if_pos h, if_neg (by simp only [long]; omega)]
    norm_num
  · rw [if_neg h, if_pos (by simp only [long]; omega)]

/-- What `absLane` leaves in its registers. -/
theorem absLane_spec {sign high low tmp : Reg} (L : Lane Reg (BitVec 32))
    (hd : [sign, high, low, tmp].Nodup) :
    vals (absLane sign high low tmp L) sign = vals L high / 2 ^ 31 ∧
    long (vals (absLane sign high low tmp L) high) (vals (absLane sign high low tmp L) low) =
      (operand L high low).toInt.natAbs ∧
    ∀ r ∉ [sign, high, low, tmp], vals (absLane sign high low tmp L) r = vals L r := by
  simp only [List.nodup_cons, List.mem_cons, List.not_mem_nil, or_false, not_or] at hd
  obtain ⟨⟨hsh, hsl, hst⟩, ⟨hhl, hht⟩, hlt, -⟩ := hd
  set L' := testLane sign (setLane sign (L.reg high >>> 31) L) with hL'
  have hvals : vals L' = Function.update (vals L) sign (vals L high / 2 ^ 31) := by
    show vals (setLane sign (L.reg high >>> 31) L) = _
    rw [vals_setLane, BitVec.toNat_ushiftRight, Nat.shiftRight_eq_div_pow]
    rfl
  have hflag : L'.flag = decide (2 ^ 31 ≤ vals L high) := by
    rw [hL', testLane_setLane]
    exact decide_eq_decide.mpr (shr_ne_zero _)
  have habs : absLane sign high low tmp L = if L'.flag then negLane high low tmp L' else L' := rfl
  rw [habs, hflag, toInt_operand]
  by_cases hneg : 2 ^ 31 ≤ vals L high
  · simp only [hneg, decide_true, if_true]
    have hlong : long (vals L' high) (vals L' low) = long (vals L high) (vals L low) := by
      rw [hvals, Function.update_of_ne (Ne.symm hsh), Function.update_of_ne (Ne.symm hsl)]
    refine ⟨?_, ?_, ?_⟩
    · simp only [negLane, vals_addLane, vals_carryLane, vals_setLane, vals_notLane, hvals]
      simp [Function.update, hsh, hsl, hst]
    · have hpos : 0 < long (vals L high) (vals L low) := by
        simp only [long]
        omega
      have hlt64 : long (vals L high) (vals L low) < 2 ^ 64 := by
        have := vals_lt L high
        have := vals_lt L low
        simp only [long]
        omega
      rw [long_negLane L' hhl hht hlt (by rw [hlong]; exact hpos), hlong]
      omega
    · intro r hr
      simp only [List.mem_cons, List.not_mem_nil, or_false, not_or] at hr
      obtain ⟨hrs, hrh, hrl, hrt⟩ := hr
      simp only [negLane, vals_addLane, vals_carryLane, vals_setLane, vals_notLane, hvals]
      simp [Function.update, hrs, hrh, hrl, hrt]
  · simp only [hneg, decide_false, Bool.false_eq_true, if_false, hvals]
    refine ⟨Function.update_self .., ?_, ?_⟩
    · rw [Function.update_of_ne (Ne.symm hsh), Function.update_of_ne (Ne.symm hsl)]
      rfl
    · intro r hr
      exact Function.update_of_ne (fun h => hr (by simp [h])) _ _

theorem operand_congr {L L' : Lane Reg (BitVec 32)} {top bottom : Reg}
    (ht : vals L' top = vals L top) (hb : vals L' bottom = vals L bottom) :
    operand L' top bottom = operand L top bottom := by
  apply BitVec.eq_of_toNat_eq
  rw [toNat_operand, toNat_operand, ht, hb]

theorem operand_loadLane :
    operand (loadLane L) .a .b = operand L .xTop .xBottom ∧
      operand (loadLane L) .c .d = operand L .yTop .yBottom := by
  obtain ⟨ha, hb, hc, hd⟩ := vals_loadLane L
  constructor
  · apply BitVec.eq_of_toNat_eq
    rw [toNat_operand, toNat_operand, ha, hb]
  · apply BitVec.eq_of_toNat_eq
    rw [toNat_operand, toNat_operand, hc, hd]

/-- The absolute values and the sign of the product. -/
theorem signsLane_spec :
    long (vals (signsLane L) .a) (vals (signsLane L) .b) = (operand L .a .b).toInt.natAbs ∧
    long (vals (signsLane L) .c) (vals (signsLane L) .d) = (operand L .c .d).toInt.natAbs ∧
    (vals (signsLane L) .i ≠ 0 ↔ ¬ (2 ^ 31 ≤ vals L .a ↔ 2 ^ 31 ≤ vals L .c)) := by
  obtain ⟨he, hab, hx⟩ := @absLane_spec .e .a .b .i L (by decide)
  set La := absLane .e .a .b .i L
  obtain ⟨hf, hcd, hy⟩ := @absLane_spec .f .c .d .i La (by decide)
  set Lb := absLane .f .c .d .i La
  have hkeep : ∀ r, r ≠ .i → vals (signsLane L) r = vals Lb r := by
    intro r hr
    show vals (setLane .i (Lb.reg .e ^^^ Lb.reg .f) Lb) r = _
    rw [vals_setLane, Function.update_of_ne hr]
  refine ⟨?_, ?_, ?_⟩
  · rw [hkeep _ (by decide), hkeep _ (by decide), hy _ (by decide), hy _ (by decide), hab]
  · rw [hkeep _ (by decide), hkeep _ (by decide), hcd,
      operand_congr (hx .c (by decide)) (hx .d (by decide))]
  · have hi : vals (signsLane L) .i = 0 ↔ vals Lb .e = vals Lb .f := by
      show vals (setLane .i (Lb.reg .e ^^^ Lb.reg .f) Lb) .i = 0 ↔
        (Lb.reg .e).toNat = (Lb.reg .f).toNat
      rw [vals_setLane, Function.update_self, BitVec.toNat_inj, ← BitVec.xor_eq_zero_iff,
        ← BitVec.toNat_inj]
      rfl
    have ha := vals_lt L .a
    have hc := vals_lt L .c
    rw [ne_eq, hi, hy _ (by decide), he, hf, hx _ (by decide)]
    omega

theorem vals_fullMultLane_i :
    vals (fullMultLane L) .i = vals L .i := by
  simp only [fullMultLane, vals_addLane, vals_carryLane, vals_multLane]
  simp [Function.update]

theorem product_negateLane :
    product (vals (negateLane L)) = (2 ^ 128 - product (vals L)) % 2 ^ 128 := by
  have he := vals_lt L .e
  have hf := vals_lt L .f
  have hg := vals_lt L .g
  have hh := vals_lt L .h
  simp only [negateLane, vals_addLane, vals_carryLane, vals_setLane, vals_notLane]
  simp [Function.update, product]
  generalize vals L .e = e at *
  generalize vals L .f = f at *
  generalize vals L .g = g at *
  generalize vals L .h = h at *
  omega

theorem toInt_operand_neg (top bottom : Reg) :
    (operand L top bottom).toInt < 0 ↔ 2 ^ 31 ≤ vals L top := by
  have := vals_lt L top
  have := vals_lt L bottom
  rw [toInt_operand]
  simp only [long]
  split
  · omega
  · omega

theorem top_le_of_long {u v n : ℕ} (h : long u v = n) (hn : n ≤ 2 ^ 63) : u ≤ 2 ^ 31 := by
  simp only [long] at h
  omega

theorem product_signedLane :
    product (vals (signedLane L)) = (operand L .xTop .xBottom).toInt.natAbs *
      (operand L .yTop .yBottom).toInt.natAbs := by
  obtain ⟨hab, hcd, -⟩ := signsLane_spec (loadLane L)
  obtain ⟨hx, hy⟩ := operand_loadLane L
  rw [hx] at hab
  rw [hy] at hcd
  have h := product_fullMultLane (signsLane (loadLane L))
  rw [if_neg (not_droppedCarry_of_half (vals_lt _ .b) (vals_lt _ .d)
    (top_le_of_long hab (natAbs_toInt_le _)) (top_le_of_long hcd (natAbs_toInt_le _))),
    Nat.add_zero] at h
  rw [← hab, ← hcd]
  exact h

theorem flag_signedLane :
    (signedLane L).flag = true ↔
      ¬ ((operand L .xTop .xBottom).toInt < 0 ↔ (operand L .yTop .yBottom).toInt < 0) := by
  obtain ⟨-, -, hsign⟩ := signsLane_spec (loadLane L)
  obtain ⟨ha, -, hc, -⟩ := vals_loadLane L
  rw [ha, hc, ← toInt_operand_neg L .xTop .xBottom, ← toInt_operand_neg L .yTop .yBottom,
    ← vals_fullMultLane_i] at hsign
  exact (flag_testLane .i _).trans hsign

/-- The product of signed operands, in two's complement. -/
theorem product_signed :
    product (vals (if (signedLane L).flag then negateLane (signedLane L) else signedLane L)) =
      if ((operand L .xTop .xBottom).toInt < 0 ↔ (operand L .yTop .yBottom).toInt < 0) then
        (operand L .xTop .xBottom).toInt.natAbs * (operand L .yTop .yBottom).toInt.natAbs
      else (2 ^ 128 - (operand L .xTop .xBottom).toInt.natAbs *
        (operand L .yTop .yBottom).toInt.natAbs) % 2 ^ 128 := by
  by_cases h : (operand L .xTop .xBottom).toInt < 0 ↔ (operand L .yTop .yBottom).toInt < 0
  · rw [if_neg (fun hf => (flag_signedLane L).mp hf h), if_pos h, product_signedLane]
  · rw [if_pos ((flag_signedLane L).mpr h), if_neg h, product_negateLane, product_signedLane]

theorem toNat_signed :
    operand (storeLane (if (signedLane L).flag then negateLane (signedLane L)
        else signedLane L)) .destTop .destBottom =
      mulHigh true (operand L .xTop .xBottom) (operand L .yTop .yBottom) := by
  apply BitVec.eq_of_toNat_eq
  rw [toNat_storeLane, toNat_mulHigh_signed, product_signed]
  split
  · rfl
  · rfl

end Values

/-! ### The instruction -/

/-- An instruction leaves the high half of the product, whatever the other registers hold. -/
def Exact (mask : ℕ → Bool) (curr : Control) (l : ℕ) (signed : Bool) (x y : BitVec 64) : Prop :=
  ∀ s : State, operand (s.lane l) .xTop .xBottom = x → operand (s.lane l) .yTop .yBottom = y →
    operand ((run Op.eval mask (emitI64MULHIInstruction curr signed) s).lane l)
      .destTop .destBottom = mulHigh signed x y

/-- What `I64FullMult` does in a lane that is not multiplied. -/
def skippedLane (L : Lane Reg (BitVec 32)) : Lane Reg (BitVec 32) :=
  let L := carryLane .f .f .e (carryLane .g .g .e L)
  let L := addLane .f .f .d (carryLane .f .f .e (carryLane .g .g .d L))
  addLane .e .e .d (carryLane .e .e .b (carryLane .f .f .d L))

variable {x y : BitVec 64}

/-- Registers that hold two operands; `f` holds `v`. -/
def holding (x y : BitVec 64) (v : BitVec 32) : State where
  reg r _ :=
    match r with
    | .xTop => x.extractLsb' 32 32
    | .xBottom => x.extractLsb' 0 32
    | .yTop => y.extractLsb' 32 32
    | .yBottom => y.extractLsb' 0 32
    | .f => v
    | _ => 0
  acc _ := 0
  flag _ := false

theorem extract_append (x : BitVec 64) : x.extractLsb' 32 32 ++ x.extractLsb' 0 32 = x := by
  apply BitVec.eq_of_toNat_eq
  rw [BitVec.toNat_append, ← Nat.shiftLeft_add_eq_or_of_lt (x.extractLsb' 0 32).isLt]
  simp only [BitVec.extractLsb'_toNat, Nat.shiftLeft_eq, Nat.shiftRight_eq_div_pow]
  have := x.isLt
  omega

theorem bottom_skipped (x y : BitVec 64) (v : BitVec 32) (l : ℕ) :
    (storeLane (skippedLane (loadLane ((holding x y v).lane l)))).reg .destBottom = v := by
  apply BitVec.eq_of_toNat_eq
  have hv := v.isLt
  show vals _ _ = _
  rw [(vals_storeLane _).2]
  simp only [skippedLane, loadLane, movLane, vals_addLane, vals_carryLane, vals_setLane]
  simp [Function.update, vals, setLane, State.lane, holding]
  omega

section

variable (hw : Whole curr) (hl : l < curr.execWidth) (hp : curr.predicated = false)
  (hon : (curr.noMask || mask l) = true)

include hw hl hp hon

theorem exact_signed (hmul : (curr.noMask || mask (l % 8)) = true) :
    Exact mask curr l true x y := by
  rintro s rfl rfl
  rw [lane_emit_signed hw hl hp hon hmul]
  exact toNat_signed (s.lane l)

theorem exact_unsigned_iff (hmul : (curr.noMask || mask (l % 8)) = true) :
    Exact mask curr l false x y ↔ ¬ DroppedCarry x y := by
  -- the result is right iff nothing has to be added to it
  have hres : ∀ s : State, operand (s.lane l) .xTop .xBottom = x →
      operand (s.lane l) .yTop .yBottom = y →
      (operand ((run Op.eval mask (emitI64MULHIInstruction curr false) s).lane l)
        .destTop .destBottom).toNat + (if DroppedCarry x y then 2 ^ 32 else 0) =
          (mulHigh false x y).toNat := by
    rintro s rfl rfl
    rw [lane_emit_unsigned hw hl hp hon hmul, toNat_unsigned, mulHigh, if_neg (by decide),
      BitVec.toNat_ofNat, Nat.mod_eq_of_lt]
    exact Nat.div_lt_of_lt_mul (Nat.mul_lt_mul'' (BitVec.isLt _) (BitVec.isLt _))
  constructor
  · intro h hdrop
    have hs := h (holding x y 0) (extract_append x) (extract_append y)
    have := hres (holding x y 0) (extract_append x) (extract_append y)
    rw [hs, if_pos hdrop] at this
    omega
  · intro hdrop s hx hy
    have := hres s hx hy
    rw [if_neg hdrop] at this
    exact BitVec.eq_of_toNat_eq this

/-- A lane that is not multiplied. -/
theorem lane_I64FullMult_skipped (hmul : (curr.noMask || mask (l % 8)) = false) (s : State) :
    (run Op.eval mask (I64FullMult curr .e .f .g .h .a .b .c .d) s).lane l =
      skippedLane (s.lane l) := by
  simp only [I64FullMult, I64FullAdd, run_append, run_cons, run_nil, lane_op hw.fits hl,
    lane_addWithCarry hw hl, lane_I32FullMult hw hl hp, On, hp, hon, hmul, Bool.not_false,
    Bool.true_or, Bool.and_true, Bool.false_eq_true, if_true, if_false]
  rfl

theorem lane_fullProduct_skipped (hmul : (curr.noMask || mask (l % 8)) = false) (s : State)
    (signed : Bool) :
    (run Op.eval mask (fullProduct curr signed) s).lane l =
      if !signed then skippedLane (loadLane (s.lane l))
      else
        let L := testLane .i (skippedLane (signsLane (loadLane (s.lane l))))
        if L.flag then negateLane L else L := by
  have htest : ∀ s : State, (exec Op.eval mask (.CMP .i, { curr with
      noMask := true, predicated := false }) s).lane l = testLane .i (s.lane l) := by
    intro s
    rw [lane_op (hw.fits.withMask true false) hl]
    rfl
  cases signed with
  | false =>
    rw [fullProduct, if_pos (by decide), run_append, lane_I64FullMult_skipped hw hl hp hon hmul,
      lane_load hw hl hp hon]
    rfl
  | true =>
    rw [fullProduct, if_neg (by decide), run_append]
    simp only
    rw [run_append, run_cons, lane_negate hw hl, htest, run_append,
      lane_I64FullMult_skipped hw hl hp hon hmul, lane_signs hw hl hp hon,
      lane_load hw hl hp hon]
    rfl

theorem lane_emit_skipped (hmul : (curr.noMask || mask (l % 8)) = false) :
    (run Op.eval mask (emitI64MULHIInstruction curr false) s).lane l =
      storeLane (skippedLane (loadLane (s.lane l))) := by
  rw [show emitI64MULHIInstruction curr false = fullProduct curr false ++ _ from rfl, run_append,
    lane_store hw hl hp hon, lane_fullProduct_skipped hw hl hp hon hmul]
  rfl

theorem not_exact_of_skipped (hmul : (curr.noMask || mask (l % 8)) = false) :
    ¬ Exact mask curr l false x y := by
  intro h
  -- the low dword of the result is the old content of a temporary
  have hbottom : ∀ v, v = (mulHigh false x y).extractLsb' 0 32 := by
    intro v
    have hs := h (holding x y v) (extract_append x) (extract_append y)
    rw [lane_emit_skipped hw hl hp hon hmul] at hs
    rw [← hs, operand, bottom_skipped]
    apply BitVec.eq_of_toNat_eq
    rw [BitVec.extractLsb'_toNat, BitVec.toNat_append,
      ← Nat.shiftLeft_add_eq_or_of_lt v.isLt, Nat.shiftLeft_eq, Nat.shiftRight_zero]
    have := v.isLt
    omega
  exact absurd ((hbottom 0).trans (hbottom 1).symm) (by decide)
end
end Gen7

end MulHigh

end Backend
