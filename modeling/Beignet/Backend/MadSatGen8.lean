/-
Saturating multiplication and addition of longs on Gen8, and on both generators.

The product is in `dst_h` and `dst_l`.  The unsigned code adds the third operand to `dst_l`; the
signed code takes the sum in `sum`, which is the register of the sign of the product, and counts
`dst_h` up or down for the carry.

* **`madsat_exact_iff`** — Gen8 is exact in every active lane; Gen7 is unless the multiplications
  of the lane run under the mask bit of its partner in the first half.
-/
import Beignet.Backend.MadSat
import Beignet.Backend.MulHighExact

set_option linter.constructorNameAsVariable false

namespace Backend

namespace MadSat

open Simd LongCode Saturate

namespace Gen8

/-- The registers of the multiplication, and the third operand. -/
inductive Reg where
  | mul (r : MulHigh.Gen8.Reg)
  | src2
  deriving DecidableEq

theorem mul_injective : Function.Injective Reg.mul := fun _ _ h => Reg.mul.inj h

/-! ### The code -/

section

open MulHigh.Gen8.Reg

instance : Coe MulHigh.Gen8.Reg Reg := ⟨.mul⟩

instance : Coe Reg (Src 64 Reg) := ⟨.reg⟩

def addUnsigned : List (Item 64 Reg) :=
  [.under .curr [.alu2 .ADD dst_l dst_l (.reg .src2)],
    .under .all [.CMP .NZ false dst_h (.imm 0)],
    .under .maskedFlagged [.alu1 .MOV dst_l (.imm 0xFFFFFFFFFFFFFFFF)],
    .under .all [.CMP .L false dst_l (.reg .src2)],
    .under .maskedFlagged [.alu1 .MOV dst_l (.imm 0xFFFFFFFFFFFFFFFF)]]

/-- `sum` -/
abbrev sum : MulHigh.Gen8.Reg := sign

/-- For one sign of `src2`: a carry changes `dst_h` by `step`, and a `dst_h` that gets to `limit`
stops before it. -/
def adjust (sign carry : Cond) (step limit high low : BitVec 64) : List (Item 64 Reg) :=
  [.under .all [.CMP sign true (.reg .src2) (.imm 0)],
    .under .maskedFlagged [.CMP carry false dst_l sum, .alu2 .ADD dst_h dst_h (.imm step),
      .alu1 .MOV tmp0 (.imm limit), .CMP .Z false dst_h tmp0, .alu1 .MOV dst_h (.imm high),
      .alu1 .MOV sum (.imm low)]]

def addSigned : List (Item 64 Reg) :=
  .under .curr [.alu2 .ADD sum (.reg .src2) dst_l] ::
  (adjust .GE .G 1 0x8000000000000000 0x7FFFFFFFFFFFFFFF 0xFFFFFFFFFFFFFFFF ++
    adjust .L .L (-1) 0x7FFFFFFFFFFFFFFF 0x8000000000000000 0)

def saturateSigned : List (Item 64 Reg) :=
  [.under .curr [.alu1 .MOV dst_l sum],
    .under .all [.CMP .G true dst_h (.imm 0)],
    .under .maskedFlagged [.alu1 .MOV dst_l (.imm 0x7FFFFFFFFFFFFFFF)],
    .under .all [.CMP .Z false dst_h (.imm 0)],
    .under .maskedFlagged [.alu1 .MOV tmp0 (.imm 0x7FFFFFFFFFFFFFFF), .CMP .G false dst_l tmp0,
      .alu1 .MOV dst_l (.imm 0x7FFFFFFFFFFFFFFF)],
    .under .all [.alu2 .ADD tmp0 dst_h (.imm 1), .CMP .Z false tmp0 (.imm 0)],
    .under .maskedFlagged [.alu1 .MOV tmp0 (.imm 0x8000000000000000), .CMP .L false dst_l tmp0,
      .alu1 .MOV dst_l (.imm 0x8000000000000000)],
    .under .all [.CMP .L true dst_h (.imm (-1))],
    .under .maskedFlagged [.alu1 .MOV dst_l (.imm 0x8000000000000000)]]

end

def addSaturate (signed : Bool) : List (Item 64 Reg) :=
  if !signed then addUnsigned else addSigned ++ saturateSigned

/-- `emitI64MADSATInstruction`, whose multiplications are those of `emitI64MULHIInstruction`. -/
def runI64MADSAT (mask : ℕ → Bool) (curr : Control) (signed : Bool) (s : State 64 Reg) :
    State 64 Reg :=
  run mask (emit curr (addSaturate signed))
    (Simd.run (relabel Reg.mul MulHigh.Gen8.Op.eval) mask
      (MulHigh.Gen8.emitI64MULHIInstruction curr signed) s)

/-! ### The sum in one lane -/

section

variable (L : Lane 64 Reg)

theorem reg_addUnsigned :
    (laneRun true addUnsigned L).reg (.mul .dst_l) =
      if L.reg (.mul .dst_h) = 0#64 ∧
        ¬ (L.reg (.mul .dst_l) + L.reg .src2).toNat < (L.reg .src2).toNat then
        L.reg (.mul .dst_l) + L.reg .src2
      else BitVec.allOnes 64 := by
  by_cases hhigh : L.reg (.mul .dst_h) = 0#64
  · simp only [hhigh, true_and, ite_not]
    simp [addUnsigned, Cond.eval, cond_eq_ite, hhigh, BitVec.ult, -BitVec.toNat_add]
  · simp [addUnsigned, Cond.eval, cond_eq_ite, hhigh, BitVec.ult]

theorem regs_adjust (sign carry : Cond) {step limit : BitVec 64} (high low : BitVec 64)
    (hlimit : L.reg (.mul .dst_h) + step ≠ limit) :
    let L' := laneRun true (adjust sign carry step limit high low) L
    L'.reg (.mul .dst_h) = (if sign.eval true (L.reg .src2) 0#64 &&
      carry.eval false (L.reg (.mul .dst_l)) (L.reg (.mul .sign)) then L.reg (.mul .dst_h) + step
      else L.reg (.mul .dst_h)) ∧
    L'.reg (.mul .sign) = L.reg (.mul .sign) ∧ L'.reg (.mul .dst_l) = L.reg (.mul .dst_l) ∧
    L'.reg .src2 = L.reg .src2 := by
  have hne : (L.reg (.mul .dst_h) + step == limit) = false := beq_eq_false_iff_ne.mpr hlimit
  have hZ : ∀ v w : BitVec 64, Cond.Z.eval false v w = (v == w) := fun _ _ => rfl
  cases hsign : sign.eval true (L.reg .src2) 0#64 with
  | true =>
    cases hcarry : carry.eval false (L.reg (.mul .dst_l)) (L.reg (.mul .sign)) with
    | true => simp [adjust, hsign, hcarry, hZ, hne]
    | false => simp [adjust, hsign, hcarry]
  | false => simp [adjust, hsign]

theorem reg_saturateSigned :
    (laneRun true saturateSigned L).reg (.mul .dst_l) =
      if 0 < (L.reg (.mul .dst_h)).toInt ∨
        (L.reg (.mul .dst_h)).toInt = 0 ∧ 2 ^ 63 ≤ (L.reg (.mul .sign)).toNat then
        0x7FFFFFFFFFFFFFFF
      else if (L.reg (.mul .dst_h)).toInt < -1 ∨
        (L.reg (.mul .dst_h)).toInt = -1 ∧ (L.reg (.mul .sign)).toNat < 2 ^ 63 then
        0x8000000000000000
      else L.reg (.mul .sign) := by
  have hpos : (0#64).slt (L.reg (.mul .dst_h)) = decide (0 < (L.reg (.mul .dst_h)).toInt) := rfl
  have hneg : (L.reg (.mul .dst_h)).slt 18446744073709551615#64 =
    decide ((L.reg (.mul .dst_h)).toInt < -1) := rfl
  have hzero : L.reg (.mul .dst_h) = 0#64 ↔ (L.reg (.mul .dst_h)).toInt = 0 := by
    rw [← BitVec.toInt_inj]
    rfl
  have hminus : L.reg (.mul .dst_h) + 1#64 = 0#64 ↔ (L.reg (.mul .dst_h)).toInt = -1 := by
    rw [← BitVec.eq_sub_iff_add_eq, ← BitVec.toInt_inj]
    rfl
  have habove : ∀ v : BitVec 64, (9223372036854775807#64).ult v = true ↔ 2 ^ 63 ≤ v.toNat := by
    intro v
    simp only [BitVec.ult, decide_eq_true_eq]
    exact Nat.lt_iff_add_one_le
  have hbelow : ∀ v : BitVec 64, v.ult 9223372036854775808#64 = true ↔ v.toNat < 2 ^ 63 := by
    intro v
    simp only [BitVec.ult, decide_eq_true_eq]
    rfl
  obtain h | h | h | h : 0 < (L.reg (.mul .dst_h)).toInt ∨ (L.reg (.mul .dst_h)).toInt = 0 ∨
    (L.reg (.mul .dst_h)).toInt = -1 ∨ (L.reg (.mul .dst_h)).toInt < -1 := by omega
  · have h1 : ¬ (L.reg (.mul .dst_h)).toInt = -1 := by omega
    have h2 : ¬ (L.reg (.mul .dst_h)).toInt = 0 := by omega
    have h3 : ¬ (L.reg (.mul .dst_h)).toInt < -1 := by omega
    simp [saturateSigned, Cond.eval, cond_eq_ite, hpos, hneg, hzero, hminus, h, h1, h2, h3]
  · simp [saturateSigned, Cond.eval, cond_eq_ite, hpos, hneg, hzero, hminus, habove, h]
  · simp [saturateSigned, Cond.eval, cond_eq_ite, hpos, hneg, hzero, hminus, hbelow, h]
  · have h1 : ¬ (L.reg (.mul .dst_h)).toInt = -1 := by omega
    have h2 : ¬ (L.reg (.mul .dst_h)).toInt = 0 := by omega
    have h3 : ¬ 0 < (L.reg (.mul .dst_h)).toInt := by omega
    simp [saturateSigned, Cond.eval, cond_eq_ite, hpos, hneg, hzero, hminus, h, h1, h2, h3]

omit L in
theorem toInt_add_one (v : BitVec 64) (h : v.toInt < 2 ^ 63 - 1) : (v + 1).toInt = v.toInt + 1 := by
  have hlo := v.le_toInt
  have hone : (1 : BitVec 64).toInt = 1 := rfl
  rw [BitVec.toInt_add, hone]
  exact Int.bmod_eq_of_le (by omega) (by omega)

omit L in
theorem toInt_sub_one (v : BitVec 64) (h : -2 ^ 63 < v.toInt) : (v + -1).toInt = v.toInt - 1 := by
  have hhi := v.toInt_lt
  have hone : (-1 : BitVec 64).toInt = -1 := rfl
  rw [BitVec.toInt_add, hone]
  exact Int.bmod_eq_of_le (by omega) (by omega)

/-- The code with its limits out of reach. -/
theorem regs_addSigned_eq (hlo : -2 ^ 62 ≤ (L.reg (.mul .dst_h)).toInt)
    (hhi : (L.reg (.mul .dst_h)).toInt ≤ 2 ^ 62) :
    let sum := L.reg .src2 + L.reg (.mul .dst_l)
    (laneRun true addSigned L).reg (.mul .dst_h) =
      (if 0 ≤ (L.reg .src2).toInt then
        if sum.toNat < (L.reg (.mul .dst_l)).toNat then L.reg (.mul .dst_h) + 1
        else L.reg (.mul .dst_h)
      else if (L.reg (.mul .dst_l)).toNat < sum.toNat then L.reg (.mul .dst_h) + -1
      else L.reg (.mul .dst_h)) ∧
    (laneRun true addSigned L).reg (.mul .sign) = sum := by
  intro sum
  have hhigh : ∀ v : BitVec 64, v.toInt ≠ 2 ^ 63 - 1 → v + 1 ≠ 0x8000000000000000 := by
    rintro v hv h
    exact hv (congrArg BitVec.toInt (BitVec.eq_sub_iff_add_eq.mpr h))
  have hlow : ∀ v : BitVec 64, v.toInt ≠ -2 ^ 63 → v + -1 ≠ 0x7FFFFFFFFFFFFFFF := by
    rintro v hv h
    exact hv (congrArg BitVec.toInt (BitVec.eq_sub_iff_add_eq.mpr h))
  set L1 := laneStep true true L (.alu2 .ADD (.mul .sign) (.reg .src2) (.reg (.mul .dst_l)))
    with hL1
  have hregs1 : L1.reg (.mul .sign) = sum ∧ L1.reg (.mul .dst_h) = L.reg (.mul .dst_h) ∧
      L1.reg (.mul .dst_l) = L.reg (.mul .dst_l) ∧ L1.reg .src2 = L.reg .src2 := by
    simp [hL1, sum]
  obtain ⟨hs1, hh1, hl1, hz1⟩ := hregs1
  obtain ⟨hh2, hs2, hl2, hz2⟩ := regs_adjust L1 .GE .G 0x7FFFFFFFFFFFFFFF 0xFFFFFFFFFFFFFFFF
    (hhigh (L1.reg (.mul .dst_h)) (by rw [hh1]; omega))
  set L2 := laneRun true (adjust .GE .G 1 0x8000000000000000 0x7FFFFFFFFFFFFFFF
    0xFFFFFFFFFFFFFFFF) L1 with hL2
  rw [hs1, hh1, hl1, hz1] at hh2
  rw [hs1] at hs2
  rw [hl1] at hl2
  rw [hz1] at hz2
  have hlow2 : (L2.reg (.mul .dst_h)).toInt ≠ -2 ^ 63 := by
    rw [hh2]
    split
    · rw [toInt_add_one _ (by omega)]
      omega
    · omega
  obtain ⟨hh3, hs3, -, -⟩ := regs_adjust L2 .L .L 0x8000000000000000 0
    (hlow (L2.reg (.mul .dst_h)) hlow2)
  have hrun : laneRun true addSigned L =
      laneRun true (adjust .L .L (-1) 0x7FFFFFFFFFFFFFFF 0x8000000000000000 0) L2 := by
    rw [addSigned, laneRun_cons, laneRun_append]
    rfl
  rw [hrun, hh3, hs3, hs2, hl2, hz2, hh2]
  refine ⟨?_, rfl⟩
  have hGE : Cond.GE.eval true (L.reg .src2) 0#64 = decide (0 ≤ (L.reg .src2).toInt) := rfl
  have hL : Cond.L.eval true (L.reg .src2) 0#64 = decide ((L.reg .src2).toInt < 0) := rfl
  have hup : Cond.G.eval false (L.reg (.mul .dst_l)) sum =
    decide (sum.toNat < (L.reg (.mul .dst_l)).toNat) := rfl
  have hdown : Cond.L.eval false (L.reg (.mul .dst_l)) sum =
    decide ((L.reg (.mul .dst_l)).toNat < sum.toNat) := rfl
  rw [hGE, hL, hup, hdown]
  by_cases hpos : 0 ≤ (L.reg .src2).toInt
  · simp [hpos, not_lt.mpr hpos]
  · simp [hpos, not_le.mp hpos]

/-- The upper and the lower half of the sum. -/
theorem regs_addSigned (hlo : -2 ^ 62 ≤ (L.reg (.mul .dst_h)).toInt)
    (hhi : (L.reg (.mul .dst_h)).toInt ≤ 2 ^ 62) {n : ℤ}
    (hn : n = (L.reg (.mul .dst_h)).toInt * 2 ^ 64 + (L.reg (.mul .dst_l)).toNat +
      (L.reg .src2).toInt) :
    ((laneRun true addSigned L).reg (.mul .dst_h)).toInt = n / 2 ^ 64 ∧
      (((laneRun true addSigned L).reg (.mul .sign)).toNat : ℤ) = n % 2 ^ 64 := by
  obtain ⟨hhigh, hsum⟩ := regs_addSigned_eq L hlo hhi
  have hz := toInt_cases (L.reg .src2)
  have hup := toInt_add_one (L.reg (.mul .dst_h)) (by omega)
  have hdown := toInt_sub_one (L.reg (.mul .dst_h)) (by omega)
  rw [hhigh, hsum, BitVec.toNat_add]
  by_cases hpos : 0 ≤ (L.reg .src2).toInt
  · rw [if_pos hpos]
    split
    · omega
    · omega
  · rw [if_neg hpos]
    split
    · omega
    · omega

/-- Saturation to 64 bits by the two halves. -/
theorem saturate_halves {n : ℤ} (hhigh : (L.reg (.mul .dst_h)).toInt = n / 2 ^ 64)
    (hlow : ((L.reg (.mul .sign)).toNat : ℤ) = n % 2 ^ 64) :
    (laneRun true saturateSigned L).reg (.mul .dst_l) = saturate 64 true n := by
  have hgreatest : greatest 64 true = 2 ^ 63 - 1 := rfl
  have hleast : least 64 true = -2 ^ 63 := rfl
  rw [reg_saturateSigned]
  split
  · rw [saturate_of_gt (by omega)]
    rfl
  · split
    · rw [saturate_of_lt (by omega)]
      rfl
    · rw [saturate_of_mem (by omega) (by omega)]
      apply BitVec.eq_of_toNat_eq
      rw [BitVec.toNat_ofInt]
      omega

end

/-! ### The product and the instruction -/

def first (L : Lane 64 Reg) : BitVec 64 := L.reg (.mul .src0)

def second (L : Lane 64 Reg) : BitVec 64 := L.reg (.mul .src1)

def third (L : Lane 64 Reg) : BitVec 64 := L.reg .src2

def result (L : Lane 64 Reg) : BitVec 64 := L.reg (.mul .dst_l)

/-- Behind the multiplication. -/
def productState (mask : ℕ → Bool) (curr : Control) (signed : Bool) (s : State 64 Reg) :
    State 64 Reg :=
  Simd.run (relabel Reg.mul MulHigh.Gen8.Op.eval) mask
    (MulHigh.Gen8.emitI64MULHIInstruction curr signed) s

/-- The number in `dst_h` and `dst_l`. -/
def total (L : Lane 64 Reg) : ℕ :=
  (L.reg (.mul .dst_h)).toNat * 2 ^ 64 + (L.reg (.mul .dst_l)).toNat

section

variable {mask : ℕ → Bool} {curr : Control} {l : ℕ} (s : State 64 Reg)

theorem third_productState (signed : Bool) :
    third ((productState mask curr signed s).lane l) = third (s.lane l) := by
  have hkeep : (productState mask curr signed s).reg .src2 = s.reg .src2 :=
    reg_run_relabel (fun _ => Reg.noConfusion) _ s
  exact congrFun hkeep l

theorem reg_productState (signed : Bool) (r : MulHigh.Gen8.Reg) :
    ((productState mask curr signed s).lane l).reg (.mul r) =
      ((Simd.run MulHigh.Gen8.Op.eval mask (MulHigh.Gen8.emitI64MULHIInstruction curr signed)
        (s.view Reg.mul)).lane l).reg r := by
  rw [← view_run mul_injective, lane_view]
  rfl

variable (hw : Whole curr) (hl : l < curr.execWidth) (hp : curr.predicated = false)
  (hon : mask l = true)

include hw hl hp hon

theorem total_productState_unsigned :
    total ((productState mask curr false s).lane l) =
      (first (s.lane l)).toNat * (second (s.lane l)).toNat := by
  rw [total, reg_productState, reg_productState,
    MulHigh.Gen8.lane_emit_unsigned hw hl hp (by simp [hon])]
  exact MulHigh.Gen8.fullMulLane_spec _ (by decide) (by decide)

theorem total_productState_signed :
    (total ((productState mask curr true s).lane l) : ℤ) =
      (first (s.lane l)).toInt * (second (s.lane l)).toInt % 2 ^ 128 := by
  have hflag := MulHigh.Gen8.flag_signedLane ((s.view Reg.mul).lane l)
  have htotal := MulHigh.Gen8.product_signedLane ((s.view Reg.mul).lane l)
  have hneg := MulHigh.Gen8.product_negateLane
    (MulHigh.Gen8.signedLane ((s.view Reg.mul).lane l))
  rw [htotal] at hneg
  rw [total, reg_productState, reg_productState, MulHigh.Gen8.reg_emit_signed hw hl hp hon]
  refine Eq.trans ?_ (MulHigh.signed_product _ _)
  have hview : ((s.view Reg.mul).lane l).reg .src0 = first (s.lane l) ∧
    ((s.view Reg.mul).lane l).reg .src1 = second (s.lane l) := ⟨rfl, rfl⟩
  rw [hview.1, hview.2] at hflag htotal hneg
  by_cases hsame : (first (s.lane l)).toInt < 0 ↔ (second (s.lane l)).toInt < 0
  · rw [if_neg fun h => hflag.mp h hsame, if_pos hsame, htotal]
  · rw [if_pos (hflag.mpr hsame), if_neg hsame, hneg]

end

/-- The instruction is exact, whatever the registers hold. -/
def Exact (mask : ℕ → Bool) (curr : Control) (l : ℕ) (signed : Bool) : Prop :=
  ∀ s : State 64 Reg, result ((runI64MADSAT mask curr signed s).lane l) =
    saturate 64 signed (value signed (first (s.lane l)) * value signed (second (s.lane l)) +
      value signed (third (s.lane l)))

/-- The unsigned sum fits unless `dst_h` is there or `dst_l` wraps. -/
theorem result_unsigned (L : Lane 64 Reg) :
    result (laneRun true (addSaturate false) L) =
      saturate 64 false ((total L : ℤ) + (third L).toNat) := by
  have hgreatest : greatest 64 false = 2 ^ 64 - 1 := rfl
  have hleast : least 64 false = 0 := rfl
  have hlow := (L.reg (.mul .dst_l)).isLt
  have hz := (third L).isLt
  have hzero : L.reg (.mul .dst_h) = 0#64 ↔ (L.reg (.mul .dst_h)).toNat = 0 := by
    rw [← BitVec.toNat_inj]
    rfl
  have htotal : total L =
    (L.reg (.mul .dst_h)).toNat * 2 ^ 64 + (L.reg (.mul .dst_l)).toNat := rfl
  have hsum : (L.reg (.mul .dst_l) + L.reg .src2).toNat =
    ((L.reg (.mul .dst_l)).toNat + (third L).toNat) % 2 ^ 64 := BitVec.toNat_add _ _
  have hthird : (L.reg .src2).toNat = (third L).toNat := rfl
  rw [addSaturate, if_pos (by decide), result, reg_addUnsigned]
  split
  · next hfits =>
    rw [hzero] at hfits
    rw [saturate_of_mem (by omega) (by omega)]
    apply BitVec.eq_of_toNat_eq
    rw [BitVec.toNat_ofInt]
    omega
  · next hfits =>
    rw [hzero] at hfits
    rw [saturate_of_gt (by omega)]
    rfl

/-- The signed sum is taken by its halves. -/
theorem result_signed (L : Lane 64 Reg) {p : ℤ} (hlo : -2 ^ 126 ≤ p) (hhi : p ≤ 2 ^ 126)
    (hp : (total L : ℤ) = p % 2 ^ 128) :
    result (laneRun true (addSaturate true) L) = saturate 64 true (p + (third L).toInt) := by
  have hlow := (L.reg (.mul .dst_l)).isLt
  have htotal : total L =
    (L.reg (.mul .dst_h)).toNat * 2 ^ 64 + (L.reg (.mul .dst_l)).toNat := rfl
  have hcases := toInt_cases (L.reg (.mul .dst_h))
  have hsplit : p = (L.reg (.mul .dst_h)).toInt * 2 ^ 64 + (L.reg (.mul .dst_l)).toNat := by omega
  obtain ⟨hhigh, hsum⟩ := regs_addSigned L (by omega) (by omega)
    (congrArg (· + (L.reg .src2).toInt) hsplit)
  rw [addSaturate, if_neg (by decide), result, laneRun_append]
  exact saturate_halves _ hhigh hsum

/-- Gen8 is exact in every active lane. -/
theorem exact {mask : ℕ → Bool} {curr : Control} {l : ℕ} (hw : Whole curr)
    (hl : l < curr.execWidth) (hp : curr.predicated = false) (hon : mask l = true)
    (signed : Bool) : Exact mask curr l signed := by
  intro s
  have hrun : (runI64MADSAT mask curr signed s).lane l =
      laneRun true (addSaturate signed) ((productState mask curr signed s).lane l) := by
    rw [← hon, ← lane_run hw.fits hl hp (by simp [hon])]
    rfl
  rw [hrun]
  cases signed with
  | false =>
    rw [result_unsigned, total_productState_unsigned s hw hl hp hon, third_productState]
    push_cast
    rfl
  | true =>
    have hbound : ((first (s.lane l)).toInt * (second (s.lane l)).toInt).natAbs ≤
        2 ^ 63 * 2 ^ 63 := by
      rw [Int.natAbs_mul]
      exact Nat.mul_le_mul (MulHigh.natAbs_toInt_le _) (MulHigh.natAbs_toInt_le _)
    rw [result_signed _ (by omega) (by omega) (total_productState_signed s hw hl hp hon),
      third_productState]
    rfl

end Gen8

/-! ### Both generators -/

section

variable {mask : ℕ → Bool} {curr : Control} {l : ℕ}

/-- **When the saturated sum is exact**: Gen7 has to multiply in the lane. -/
theorem madsat_exact_iff (hw : Whole curr) (hl : l < curr.execWidth)
    (hp : curr.predicated = false) (hon : mask l = true) (signed : Bool) :
    Gen7.Exact mask curr l signed ∧ Gen8.Exact mask curr l signed ↔
      (curr.noMask || mask (l % 8)) = true := by
  have hon' : (curr.noMask || mask l) = true := by simp [hon]
  constructor
  · rintro ⟨h7, -⟩
    by_contra hmul
    exact Gen7.not_exact_of_skipped hw hl hp hon' signed (Bool.eq_false_of_not_eq_true hmul) h7
  · intro hmul
    exact ⟨Gen7.exact_of_multiplied hw hl hp hon' signed hmul,
      Gen8.exact hw hl hp hon signed⟩

/-- All 16 lanes are active. -/
theorem madsat_exact_sixteen :
    Gen7.Exact (fun _ => true) ⟨16, 0, 0, false, false⟩ 9 true ∧
      Gen8.Exact (fun _ => true) ⟨16, 0, 0, false, false⟩ 9 true :=
  (madsat_exact_iff ⟨by decide, rfl, rfl⟩ (by decide) rfl rfl true).mpr rfl

/-- Only lane 9 is active. -/
theorem not_madsat_alone :
    ¬ Gen7.Exact (fun l => l == 9) ⟨16, 0, 0, false, false⟩ 9 false :=
  Gen7.not_exact_of_skipped ⟨by decide, rfl, rfl⟩ (by decide) rfl rfl false rfl

end

end MadSat

end Backend
