/-
Saturating multiplication and addition of longs on Gen7 (`emitI64MADSATInstruction`).

The code takes the whole product from the instructions that `emitI64MULHIInstruction` emits, adds
the third operand, and looks at the dwords of the sum for an overflow.

* `exact_of_multiplied` — a multiplied lane is exact, also where `I64FullAdd` loses a carry of the
  product;
* `not_exact_of_skipped` — the other lanes are not.
-/
import Beignet.Backend.LongCode
import Beignet.Backend.MulHighGen7
import Beignet.Lib.Saturate

set_option linter.constructorNameAsVariable false

namespace Backend

namespace MadSat

open Simd LongCode Saturate

/-! ### The code -/

namespace Gen7

/-- The registers of the multiplication, and the third operand. -/
inductive Reg where
  | mul (r : MulHigh.Gen7.Reg)
  | zTop
  | zBottom
  deriving DecidableEq

theorem mul_injective : Function.Injective Reg.mul := fun _ _ h => Reg.mul.inj h

section

open MulHigh.Gen7.Reg

instance : Coe MulHigh.Gen7.Reg Reg := ⟨.mul⟩

instance : Coe Reg (Src 32 Reg) := ⟨.reg⟩

def addUnsigned : List (Item 32 Reg) :=
  [.under .curr [.alu1 .MOV c (.reg .zTop), .alu1 .MOV d (.reg .zBottom), .addWithCarry h h d,
    .addWithCarry g g d, .addWithCarry f f d, .alu2 .ADD e e d, .addWithCarry g g c,
    .addWithCarry f f c, .alu2 .ADD e e c, .alu2 .OR a e f]]

def saturateUnsigned : List (Item 32 Reg) :=
  [.under .all [.CMP .NZ false a (.imm 0)],
    .under .flagged [.alu1 .MOV g (.imm (-1)), .alu1 .MOV h (.imm (-1))]]

def addSigned : List (Item 32 Reg) :=
  [.under .curr [.alu1 .MOV c (.reg .zTop), .alu1 .MOV d (.reg .zBottom),
    .alu2 .ASR b c (.imm 31), .alu1 .MOV a b, .addWithCarry h h d, .addWithCarry g g d,
    .addWithCarry f f d, .alu2 .ADD e e d, .addWithCarry g g c, .addWithCarry f f c,
    .alu2 .ADD e e c, .addWithCarry f f b, .alu2 .ADD e e b, .alu2 .ADD e e a]]

def saturateAbove : List (Item 32 Reg) :=
  [.under .curr [.alu1 .MOV b (.imm 0)],
    .under .all [.CMP .NZ false e (.imm 0)],
    .under .flagged [.alu1 .MOV b (.imm 1)],
    .under .all [.CMP .NZ false f (.imm 0)],
    .under .flagged [.alu1 .MOV b (.imm 1)],
    .under .all [.CMP .G false g (.imm 0x7FFFFFFF)],
    .under .flagged [.alu1 .MOV b (.imm 1)],
    .under .all [.alu2 .SHR a e (.imm 31), .CMP .NZ false a (.imm 0)],
    .under .flagged [.alu1 .MOV b (.imm 0)],
    .under .all [.CMP .NZ false b (.imm 0)],
    .under .flagged [.alu1 .MOV g (.imm 0x7FFFFFFF), .alu1 .MOV h (.imm 0xFFFFFFFF)]]

def saturateBelow : List (Item 32 Reg) :=
  [.under .all [.alu1 .MOV b (.imm 0), .CMP .NZ false e (.imm 0xFFFFFFFF)],
    .under .flagged [.alu1 .MOV b (.imm 1)],
    .under .all [.CMP .NZ false f (.imm 0xFFFFFFFF)],
    .under .flagged [.alu1 .MOV b (.imm 1)],
    .under .all [.CMP .LE false g (.imm 0x7FFFFFFF)],
    .under .flagged [.alu1 .MOV b (.imm 1)],
    .under .all [.CMP .Z false a (.imm 0)],
    .under .flagged [.alu1 .MOV b (.imm 0)],
    .under .all [.CMP .NZ false b (.imm 0)],
    .under .flagged [.alu1 .MOV g (.imm 0x80000000), .alu1 .MOV h (.imm 0)]]

def storeResult : List (Item 32 Reg) :=
  [.under .curr [.alu1 .MOV destTop g, .alu1 .MOV destBottom h]]

end

/-- The code behind the multiplication. -/
def addSaturate (signed : Bool) : List (Item 32 Reg) :=
  (if !signed then addUnsigned ++ saturateUnsigned
  else addSigned ++ saturateAbove ++ saturateBelow) ++ storeResult

/-- `emitI64MADSATInstruction` -/
def runI64MADSAT (mask : ℕ → Bool) (curr : Control) (signed : Bool) (s : State 32 Reg) :
    State 32 Reg :=
  run mask (emit curr (addSaturate signed))
    (Simd.run (relabel Reg.mul MulHigh.Gen7.Op.eval) mask (MulHigh.Gen7.fullProduct curr signed) s)

/-! ### The sum in one lane -/

section

variable (active : Bool) (L : Lane 32 Reg)

/-- The number in the four dwords `e`, `f`, `g` and `h`. -/
def total (L : Lane 32 Reg) : ℕ :=
  ((((L.reg (.mul .e)).toNat * 2 ^ 32 + (L.reg (.mul .f)).toNat) * 2 ^ 32) +
    (L.reg (.mul .g)).toNat) * 2 ^ 32 + (L.reg (.mul .h)).toNat

def result (L : Lane 32 Reg) : BitVec 64 := L.reg (.mul .destTop) ++ L.reg (.mul .destBottom)

def third (L : Lane 32 Reg) : BitVec 64 := L.reg .zTop ++ L.reg .zBottom

def held (L : Lane 32 Reg) : BitVec 64 := L.reg (.mul .g) ++ L.reg (.mul .h)

theorem total_addUnsigned :
    total (laneRun active addUnsigned L) = (total L + (third L).toNat) % 2 ^ 128 := by
  have hthird : (third L).toNat = (L.reg .zTop).toNat * 2 ^ 32 + (L.reg .zBottom).toNat :=
    SplitWord.toNat_append _ _
  simp [-BitVec.toNat_add, -BitVec.toNat_ofNat, addUnsigned, total]
  simp only [BitVec.toNat_add, toNat_carry, hthird]
  omega

/-- A dword of the sign of the third operand. -/
def thirdSign (L : Lane 32 Reg) : ℕ := ((L.reg .zTop).sshiftRight 31).toNat

theorem total_addSigned :
    total (laneRun active addSigned L) =
      (total L + (third L).toNat + thirdSign L * 2 ^ 64 + thirdSign L * 2 ^ 96) % 2 ^ 128 := by
  have hthird : (third L).toNat = (L.reg .zTop).toNat * 2 ^ 32 + (L.reg .zBottom).toNat :=
    SplitWord.toNat_append _ _
  have hfold : ((L.reg .zTop).sshiftRight 31).toNat = thirdSign L := rfl
  simp [-BitVec.toNat_add, -BitVec.toNat_ofNat, addSigned, total]
  simp only [BitVec.toNat_add, toNat_carry, hthird, hfold]
  omega

/-! ### Saturation in one lane -/

/-- A dword that collects three tests. -/
theorem collect_eq_zero {p q r : Prop} [Decidable p] [Decidable q] [Decidable r] :
    (if p then 1 else if q then (if r then 0 else 1) else 1 : BitVec 32) = 0 ↔ ¬ p ∧ q ∧ r := by
  by_cases hp : p
  · simp [hp]
  · by_cases hq : q
    · by_cases hr : r
      · simp [hp, hq, hr]
      · simp [hp, hq, hr]
    · simp [hp, hq]

/-- Two dwords that are kept or replaced together. -/
theorem ite_append (p : Prop) [Decidable p] (v u v' u' : BitVec 32) :
    ((if p then v else v') ++ (if p then u else u') : BitVec 64) =
      if p then (v ++ u : BitVec 64) else v' ++ u' := by
  split
  · rfl
  · rfl

theorem held_saturateUnsigned :
    held (laneRun active saturateUnsigned L) =
      if L.reg (.mul .a) = 0 then held L else BitVec.allOnes 64 := by
  simp [saturateUnsigned, Cond.eval, held, cond_eq_ite]
  exact ite_append _ _ _ _ _

theorem held_saturateAbove :
    held (laneRun active saturateAbove L) =
      if L.reg (.mul .e) >>> 31 = 0 ∧ ¬ ((L.reg (.mul .g)).toNat ≤ 0x7FFFFFFF ∧
        L.reg (.mul .f) = 0 ∧ L.reg (.mul .e) = 0) then 0x7FFFFFFFFFFFFFFF else held L := by
  have htest := @collect_eq_zero (2147483647 < (L.reg (.mul .g)).toNat)
    (L.reg (.mul .f) = 0) (L.reg (.mul .e) = 0) _ _ _
  rw [not_lt] at htest
  simp only [← htest]
  simp [saturateAbove, Cond.eval, held, cond_eq_ite, BitVec.ult]
  exact ite_append _ _ _ _ _

theorem reg_saturateAbove :
    (laneRun active saturateAbove L).reg (.mul .a) = L.reg (.mul .e) >>> 31 ∧
      (laneRun active saturateAbove L).reg (.mul .e) = L.reg (.mul .e) ∧
      (laneRun active saturateAbove L).reg (.mul .f) = L.reg (.mul .f) := by
  simp [saturateAbove]

theorem held_saturateBelow :
    held (laneRun active saturateBelow L) =
      if L.reg (.mul .a) ≠ 0 ∧ ¬ (0x7FFFFFFF < (L.reg (.mul .g)).toNat ∧
        L.reg (.mul .f) = 0xFFFFFFFF ∧ L.reg (.mul .e) = 0xFFFFFFFF) then 0x8000000000000000
      else held L := by
  have htest := @collect_eq_zero ((L.reg (.mul .g)).toNat ≤ 2147483647)
    (L.reg (.mul .f) = 0xFFFFFFFF) (L.reg (.mul .e) = 0xFFFFFFFF) _ _ _
  rw [not_le] at htest
  simp only [← htest]
  simp [saturateBelow, Cond.eval, held, cond_eq_ite, BitVec.ule]
  exact ite_append _ _ _ _ _

theorem toNat_held : (held L).toNat = (L.reg (.mul .g)).toNat * 2 ^ 32 + (L.reg (.mul .h)).toNat :=
  SplitWord.toNat_append _ _

theorem total_eq : total L = ((L.reg (.mul .e)).toNat * 2 ^ 32 + (L.reg (.mul .f)).toNat) * 2 ^ 64 +
    (held L).toNat := by
  rw [toNat_held, total]
  ring

theorem dword_eq_zero (v : BitVec 32) : v = 0 ↔ v.toNat = 0 := by
  rw [← BitVec.toNat_inj]
  rfl

/-- The dwords behind an unsigned sum. -/
theorem held_unsigned (ha : L.reg (.mul .a) = L.reg (.mul .e) ||| L.reg (.mul .f)) :
    held (laneRun active saturateUnsigned L) = saturate 64 false (total L) := by
  have hgreatest : greatest 64 false = 2 ^ 64 - 1 := rfl
  have hleast : least 64 false = 0 := rfl
  have hlt := (held L).isLt
  have hor : L.reg (.mul .a) = 0 ↔ total L < 2 ^ 64 := by
    rw [ha, show (0 : BitVec 32) = 0#32 from rfl, BitVec.or_eq_zero_iff, total_eq]
    show _ = 0 ∧ _ = 0 ↔ _
    rw [dword_eq_zero, dword_eq_zero]
    omega
  rw [held_saturateUnsigned]
  by_cases h : total L < 2 ^ 64
  · have htotal : total L = (held L).toNat := by
      rw [total_eq] at h ⊢
      omega
    rw [if_pos (hor.mpr h), saturate_of_mem (by omega) (by omega), htotal]
    exact (ofInt_value false (held L)).symm
  · rw [if_neg (mt hor.mp h), saturate_of_gt (by omega)]
    rfl

/-- The sum as a signed number of 128 bits. -/
def signedTotal (L : Lane 32 Reg) : ℤ :=
  if total L < 2 ^ 127 then total L else total L - 2 ^ 128

/-- The sign of a number of 128 bits. -/
theorem shr_eq_zero_iff : L.reg (.mul .e) >>> 31 = 0 ↔ total L < 2 ^ 127 := by
  have hf := (L.reg (.mul .f)).isLt
  have hlt := (held L).isLt
  rw [dword_eq_zero, BitVec.toNat_ushiftRight, Nat.shiftRight_eq_div_pow, total_eq]
  omega

theorem held_eq : held L = BitVec.ofInt 64 (signedTotal L) := by
  have htotal := total_eq L
  apply BitVec.eq_of_toNat_eq
  rw [BitVec.toNat_ofInt, signedTotal]
  split
  · omega
  · omega

theorem held_signed :
    held (laneRun active (saturateAbove ++ saturateBelow) L) =
      saturate 64 true (signedTotal L) := by
  have hgreatest : greatest 64 true = 2 ^ 63 - 1 := rfl
  have hleast : least 64 true = -2 ^ 63 := rfl
  have hheld := toNat_held L
  have htotal := total_eq L
  obtain ⟨ha, he', hf'⟩ := reg_saturateAbove active L
  rw [laneRun_append, held_saturateBelow, ha, he', hf']
  by_cases hsign : L.reg (.mul .e) >>> 31 = 0
  · have hpos := (shr_eq_zero_iff L).mp hsign
    have hn : signedTotal L = total L := if_pos hpos
    rw [if_neg fun h => h.1 hsign, held_saturateAbove]
    by_cases hfit : (L.reg (.mul .g)).toNat ≤ 0x7FFFFFFF ∧ L.reg (.mul .f) = 0 ∧
        L.reg (.mul .e) = 0
    · rw [if_neg fun h => h.2 hfit]
      rw [dword_eq_zero, dword_eq_zero] at hfit
      rw [saturate_of_mem (by omega) (by omega), held_eq]
    · rw [if_pos ⟨hsign, hfit⟩]
      rw [dword_eq_zero, dword_eq_zero] at hfit
      rw [saturate_of_gt (by omega)]
      rfl
  · have hneg := mt (shr_eq_zero_iff L).mpr hsign
    have hn : signedTotal L = total L - 2 ^ 128 := if_neg hneg
    have habove := held_saturateAbove active L
    rw [if_neg fun h => hsign h.1] at habove
    rw [habove, (SplitWord.append_inj.mp habove).1]
    have hones : ∀ v : BitVec 32, v = 0xFFFFFFFF ↔ v.toNat = 2 ^ 32 - 1 := by
      intro v
      rw [← BitVec.toNat_inj]
      rfl
    by_cases hfit : 0x7FFFFFFF < (L.reg (.mul .g)).toNat ∧ L.reg (.mul .f) = 0xFFFFFFFF ∧
        L.reg (.mul .e) = 0xFFFFFFFF
    · rw [if_neg fun h => h.2 hfit]
      rw [hones, hones] at hfit
      rw [saturate_of_mem (by omega) (by omega), held_eq]
    · rw [if_pos ⟨hsign, hfit⟩]
      rw [hones, hones] at hfit
      rw [saturate_of_lt (by omega)]
      rfl

/-! ### The product and the sum -/

def first (L : Lane 32 Reg) : BitVec 64 := L.reg (.mul .xTop) ++ L.reg (.mul .xBottom)

def second (L : Lane 32 Reg) : BitVec 64 := L.reg (.mul .yTop) ++ L.reg (.mul .yBottom)

/-- A carry is only lost by a product that saturates all the same. -/
theorem le_of_droppedCarry {x y : BitVec 64} (h : MulHigh.Gen7.DroppedCarry x y) :
    2 ^ 96 + 2 ^ 64 ≤ x.toNat * y.toNat := by
  obtain ⟨hhigh, hlow⟩ := h
  have ha : x.toNat / 2 ^ 32 < 2 ^ 32 := by
    have := x.isLt
    omega
  have hc : y.toNat / 2 ^ 32 < 2 ^ 32 := by
    have := y.isLt
    omega
  have hb : x.toNat % 2 ^ 32 < 2 ^ 32 := Nat.mod_lt _ (by norm_num)
  have hd : y.toNat % 2 ^ 32 < 2 ^ 32 := Nat.mod_lt _ (by norm_num)
  have hx := Nat.div_add_mod x.toNat (2 ^ 32)
  have hy := Nat.div_add_mod y.toNat (2 ^ 32)
  generalize x.toNat / 2 ^ 32 = a at *
  generalize x.toNat % 2 ^ 32 = b at *
  generalize y.toNat / 2 ^ 32 = c at *
  generalize y.toNat % 2 ^ 32 = d at *
  have hxy : x.toNat * y.toNat = a * c * 2 ^ 64 + (a * d + b * c) * 2 ^ 32 + b * d := by
    rw [← hx, ← hy]
    ring
  have hbd := MulHigh.mul_bound hb hd
  have had := MulHigh.mul_bound ha hd
  have hbc := MulHigh.mul_bound hb hc
  -- one of the two middle products alone does not reach the carry
  have hpos : 0 < a * c := by
    rcases Nat.eq_zero_or_pos a with rfl | hapos
    · simp only [Nat.zero_mul, Nat.zero_add] at hhigh hlow
      omega
    · rcases Nat.eq_zero_or_pos c with rfl | hcpos
      · simp only [Nat.mul_zero, Nat.zero_div, Nat.add_zero, Nat.zero_mod] at hhigh hlow
        omega
      · exact Nat.mul_pos hapos hcpos
  rw [hxy]
  generalize a * c = p at *
  generalize a * d = q at *
  generalize b * c = r at *
  generalize b * d = u at *
  omega

theorem sshiftRight_sign (v : BitVec 32) :
    (v.sshiftRight 31).toNat = if v.msb then 2 ^ 32 - 1 else 0 := by
  have hlt := v.isLt
  have hint : (v.sshiftRight 31).toInt = if v.msb then -1 else 0 := by
    rw [BitVec.toInt_sshiftRight, Int.shiftRight_eq_div_pow, BitVec.toInt_eq_msb_cond,
      BitVec.msb_eq_decide]
    split
    · next h =>
      have := of_decide_eq_true h
      omega
    · next h =>
      have hpos : ¬ _ := fun h' => h (decide_eq_true h')
      omega
  have hnat := (v.sshiftRight 31).isLt
  rw [BitVec.toInt_eq_toNat_cond] at hint
  split_ifs at hint ⊢
  · omega
  · omega
  · omega

/-- The third operand, continued by its sign. -/
theorem third_signed :
    (((third L).toNat + thirdSign L * 2 ^ 64 + thirdSign L * 2 ^ 96 : ℕ) : ℤ) =
      if (third L).toInt < 0 then (third L).toInt + 2 ^ 128 else (third L).toInt := by
  have hlt := (third L).isLt
  have hmsb : (third L).msb = (L.reg .zTop).msb := SplitWord.msb_append _ _ (by decide)
  rw [thirdSign, sshiftRight_sign, ← hmsb, BitVec.toInt_eq_msb_cond]
  cases (third L).msb with
  | true =>
    rw [if_pos rfl, if_pos rfl]
    split
    · omega
    · omega
  | false =>
    rw [if_neg Bool.false_ne_true, if_neg Bool.false_ne_true]
    split
    · omega
    · omega

theorem result_addSaturate (signed : Bool) :
    result (laneRun active (addSaturate signed) L) = held (laneRun active (if !signed then
      addUnsigned ++ saturateUnsigned else addSigned ++ saturateAbove ++ saturateBelow) L) := by
  rw [addSaturate, laneRun_append]
  simp [storeResult, result, held]

theorem result_unsigned :
    result (laneRun active (addSaturate false) L) =
      saturate 64 false (((total L + (third L).toNat) % 2 ^ 128 : ℕ) : ℤ) := by
  rw [result_addSaturate, if_pos (by decide), laneRun_append,
    held_unsigned active _ (by simp [addUnsigned]), total_addUnsigned]

theorem result_signed {n : ℤ} (hlo : -2 ^ 127 ≤ n) (hhi : n < 2 ^ 127)
    (hn : (total L : ℤ) = (n - (third L).toInt) % 2 ^ 128) :
    result (laneRun active (addSaturate true) L) = saturate 64 true n := by
  have hthird := third_signed L
  have htotal : (total (laneRun active addSigned L) : ℤ) = n % 2 ^ 128 := by
    rw [total_addSigned]
    split at hthird
    · omega
    · omega
  have hsigned : signedTotal (laneRun active addSigned L) = n := by
    rw [signedTotal]
    split
    · omega
    · omega
  rw [result_addSaturate, if_neg (by decide), List.append_assoc, laneRun_append, held_signed,
    hsigned]

end

section

variable {mask : ℕ → Bool} {curr : Control} {l : ℕ} (s : State 32 Reg)

/-- Behind the multiplication. -/
def productState (mask : ℕ → Bool) (curr : Control) (signed : Bool) (s : State 32 Reg) :
    State 32 Reg :=
  Simd.run (relabel Reg.mul MulHigh.Gen7.Op.eval) mask (MulHigh.Gen7.fullProduct curr signed) s

theorem third_productState (signed : Bool) :
    third ((productState mask curr signed s).lane l) = third (s.lane l) := by
  have hkeep : ∀ r : Reg, (∀ r', .mul r' ≠ r) →
      (productState mask curr signed s).reg r = s.reg r := fun r hr => reg_run_relabel hr _ s
  unfold third State.lane
  simp only [hkeep .zTop (fun _ => Reg.noConfusion), hkeep .zBottom (fun _ => Reg.noConfusion)]

theorem total_productState (signed : Bool) :
    total ((productState mask curr signed s).lane l) =
      MulHigh.Gen7.product (MulHigh.Gen7.vals ((Simd.run MulHigh.Gen7.Op.eval mask
        (MulHigh.Gen7.fullProduct curr signed) (s.view Reg.mul)).lane l)) := by
  rw [← view_run mul_injective, lane_view]
  rfl

variable (hw : Whole curr) (hl : l < curr.execWidth) (hp : curr.predicated = false)
  (hon : (curr.noMask || mask l) = true) (hmul : (curr.noMask || mask (l % 8)) = true)

include hw hl hp hon hmul

theorem total_productState_unsigned :
    total ((productState mask curr false s).lane l) +
      (if MulHigh.Gen7.DroppedCarry (first (s.lane l)) (second (s.lane l)) then 2 ^ 96 else 0) =
      (first (s.lane l)).toNat * (second (s.lane l)).toNat := by
  rw [total_productState, MulHigh.Gen7.lane_fullProduct_unsigned hw hl hp hon hmul]
  exact MulHigh.Gen7.product_unsigned _

theorem total_productState_signed :
    (total ((productState mask curr true s).lane l) : ℤ) =
      (first (s.lane l)).toInt * (second (s.lane l)).toInt % 2 ^ 128 := by
  rw [total_productState, MulHigh.Gen7.lane_fullProduct_signed hw hl hp hon hmul,
    MulHigh.Gen7.product_signed]
  exact MulHigh.signed_product _ _

end

/-! ### The instruction -/

/-- What the instruction leaves in an executed lane. -/
theorem result_runI64MADSAT {mask : ℕ → Bool} {curr : Control} {l : ℕ} (hw : Whole curr)
    (hl : l < curr.execWidth) (hp : curr.predicated = false) (hon : (curr.noMask || mask l) = true)
    (signed : Bool) (s : State 32 Reg) :
    result ((runI64MADSAT mask curr signed s).lane l) =
      result (laneRun (mask l) (addSaturate signed)
        ((productState mask curr signed s).lane l)) := by
  rw [← lane_run hw.fits hl hp hon]
  rfl

/-- The instruction is exact, whatever the registers hold. -/
def Exact (mask : ℕ → Bool) (curr : Control) (l : ℕ) (signed : Bool) : Prop :=
  ∀ s : State 32 Reg, result ((runI64MADSAT mask curr signed s).lane l) =
    saturate 64 signed (value signed (first (s.lane l)) * value signed (second (s.lane l)) +
      value signed (third (s.lane l)))

section

variable {mask : ℕ → Bool} {curr : Control} {l : ℕ} (hw : Whole curr) (hl : l < curr.execWidth)
  (hp : curr.predicated = false) (hon : (curr.noMask || mask l) = true) (signed : Bool)

include hw hl hp hon

theorem exact_of_multiplied (hmul : (curr.noMask || mask (l % 8)) = true) :
    Exact mask curr l signed := by
  intro s
  rw [result_runI64MADSAT hw hl hp hon]
  cases signed with
  | false =>
    have hgreatest : greatest 64 false = 2 ^ 64 - 1 := rfl
    have htotal := total_productState_unsigned s hw hl hp hon hmul
    have hx := (first (s.lane l)).isLt
    have hy := (second (s.lane l)).isLt
    have hz := (third (s.lane l)).isLt
    have hxy : (first (s.lane l)).toNat * (second (s.lane l)).toNat ≤ (2 ^ 64 - 1) * (2 ^ 64 - 1) :=
      Nat.mul_le_mul (by omega) (by omega)
    rw [result_unsigned, third_productState]
    show _ = saturate 64 false (((first (s.lane l)).toNat : ℤ) * (second (s.lane l)).toNat +
      (third (s.lane l)).toNat)
    rw [← Nat.cast_mul, ← htotal]
    rw [← htotal] at hxy
    by_cases hdrop : MulHigh.Gen7.DroppedCarry (first (s.lane l)) (second (s.lane l))
    · have hlarge := le_of_droppedCarry hdrop
      rw [← htotal] at hlarge
      rw [if_pos hdrop] at hlarge hxy ⊢
      rw [saturate_of_gt (by omega), saturate_of_gt (by omega)]
    · rw [if_neg hdrop] at hxy ⊢
      rw [Nat.mod_eq_of_lt (by omega), Nat.add_zero]
      push_cast
      rfl
  | true =>
    have htotal := total_productState_signed s hw hl hp hon hmul
    have hz := (third (s.lane l)).toInt_lt
    have hz' := (third (s.lane l)).le_toInt
    have hbound : ((first (s.lane l)).toInt * (second (s.lane l)).toInt).natAbs ≤
        2 ^ 63 * 2 ^ 63 := by
      rw [Int.natAbs_mul]
      exact Nat.mul_le_mul (MulHigh.natAbs_toInt_le _) (MulHigh.natAbs_toInt_le _)
    refine result_signed _ _ ?_ ?_ ?_
    · show _ ≤ (first (s.lane l)).toInt * (second (s.lane l)).toInt + (third (s.lane l)).toInt
      omega
    · show (first (s.lane l)).toInt * (second (s.lane l)).toInt + (third (s.lane l)).toInt < _
      omega
    · rw [htotal, third_productState]
      show _ = ((first (s.lane l)).toInt * (second (s.lane l)).toInt + (third (s.lane l)).toInt -
        (third (s.lane l)).toInt) % _
      rw [add_sub_cancel_right]

/-- All registers are 0 but for one of the product. -/
def holding (v : BitVec 32) : State 32 Reg :=
  ⟨fun r _ => if r = .mul .h then v else 0, fun _ => 0, fun _ => false⟩

theorem not_exact_of_skipped (hmul : (curr.noMask || mask (l % 8)) = false) :
    ¬ Exact mask curr l signed := by
  intro h
  have hlane' : (holding 1).lane l = (holding 1).lane 0 := rfl
  have hfirst : first ((holding 1).lane 0) = 0 := by decide
  have hsecond : second ((holding 1).lane 0) = 0 := by decide
  have hthird' : third ((holding 1).lane 0) = 0 := by decide
  have hresult := h (holding 1)
  rw [result_runI64MADSAT hw hl hp hon, hlane', hfirst, hsecond, hthird'] at hresult
  have hlane : ((holding 1).view Reg.mul).lane l = ((holding 1).view Reg.mul).lane 0 := rfl
  have htotal : total ((productState mask curr signed (holding 1)).lane l) = 1 := by
    rw [total_productState, MulHigh.Gen7.lane_fullProduct_skipped hw hl hp hon hmul, hlane]
    cases signed with
    | false => decide
    | true => decide
  have hthird : third ((productState mask curr signed (holding 1)).lane l) = 0 := by
    rw [third_productState, hlane', hthird']
  -- the old content of a register is the result, where 0 was asked for
  cases signed with
  | false =>
    rw [result_unsigned, htotal, hthird] at hresult
    exact absurd hresult (by decide)
  | true =>
    rw [result_signed (n := 1) _ _ (by decide) (by decide) (by rw [htotal, hthird]; rfl)]
      at hresult
    exact absurd hresult (by decide)

end

end Gen7

end MadSat

end Backend
