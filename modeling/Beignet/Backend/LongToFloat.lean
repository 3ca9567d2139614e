/-
Conversion of longs to floats on Gen7 (`UnsignedI64ToFloat`, `emitI64ToFloatInstruction`).

A long of less than 32 bits is left to the conversion of dwords.  Of the others the code takes the
exponent from the leading bit, the mantissa from the 23 bits behind it, and moves the rest of the
bits to the top of the two dwords, where they decide about rounding.  Two jumps skip a part of the
code if no lane needs it.

* **`i64ToFloat_exact_iff`** — a lane gets the rounded number, unless it is executed without its
  mask bit and has less than 32 bits.
-/
import Beignet.Backend.LongCode
import Beignet.Lib.Saturate
import Beignet.Lib.SingleFloat

set_option linter.constructorNameAsVariable false

namespace Backend

namespace LongCode

open Simd Saturate

/-! ### The code -/

/-- The temporaries and the destination. -/
inductive FloatTmp where
  | dest | high | low | exp | mantissa | tmp | tmp_high
  deriving DecidableEq

namespace ToFloat

section

open FloatTmp

/-- Up to the first jump.  The predicate of the first instruction is that of `p->curr`, which is
none. -/
def lowConvert (convert : BitVec 32 → BitVec 32) : List (Item 32 (Reg FloatTmp)) :=
  [.under .all [.alu1 .MOV exp (.imm 32)],
    .under .curr [.alu1 .FBH exp (.reg high), .alu2 .ADD exp (.neg exp) (.imm 31)],
    .under .all [.CMP .Z false (.reg exp) (.imm 32)],
    .under .maskedFlagged [.alu1 (.convert convert) dest (.reg low)]]

/-- Up to the second jump: `exp > 23 && high != 0`.  The mantissa starts `exp + shift`
bits up. -/
def splitAbove (shift : BitVec 32) : List (Item 32 (Reg FloatTmp)) :=
  [.under .all [.CMP .G false (.reg exp) (.imm 23)],
    .under .flagged [.CMP .L false (.reg exp) (.imm 32), .alu2 .ADD tmp (.reg exp) (.imm shift),
      .alu2 .SHR mantissa (.reg high) (.reg tmp),
      .alu2 .AND mantissa (.reg mantissa) (.imm 0x7fffff),
      .alu2 .SHR dest (.reg low) (.reg tmp), .alu2 .ADD tmp (.neg tmp) (.imm 32),
      .alu2 .SHL high (.reg high) (.reg tmp), .alu2 .OR high (.reg high) (.reg dest),
      .alu2 .SHL low (.reg low) (.reg tmp)]]

def splitLarge : List (Item 32 (Reg FloatTmp)) := splitAbove (-23)

def splitSmall : List (Item 32 (Reg FloatTmp)) :=
  [.under .all [.CMP .Z false (.reg exp) (.imm 23)],
    .under .flagged [.alu1 .MOV dest (.imm 0)],
    .under .all [.CMP .L false (.reg exp) (.imm 23)],
    .under .flagged [.alu2 .ADD tmp (.reg exp) (.imm 9), .alu2 .SHR dest (.reg low) (.reg tmp)],
    .under .all [.CMP .LE false (.reg exp) (.imm 23)],
    .under .flagged [.alu2 .ADD tmp (.neg exp) (.imm 23),
      .alu2 .SHL mantissa (.reg high) (.reg tmp), .alu2 .OR mantissa (.reg mantissa) (.reg dest),
      .alu2 .AND mantissa (.reg mantissa) (.imm 0x7fffff), .alu2 .SHL high (.reg low) (.reg tmp),
      .alu1 .MOV low (.imm 0)]]

/-- The float is put together and rounded. -/
def roundOff : List (Item 32 (Reg FloatTmp)) :=
  [.under .all [.CMP .LE false (.reg exp) (.imm 31)],
    .under .flagged [.alu2 .ADD exp (.reg exp) (.imm 159), .alu2 .SHL exp (.reg exp) (.imm 23),
      .alu2 .OR dest (.reg exp) (.reg mantissa), .CMP .GE false (.reg high) (.imm 0x80000000),
      .alu2 .ADD dest (.reg dest) (.imm 1), .CMP .Z false (.reg high) (.imm 0x80000000),
      .CMP .Z false (.reg low) (.imm 0), .alu2 .AND dest (.reg dest) (.imm 0xfffffffe)]]

def loadHalves (src : ℕ) : List (Item 32 (Reg FloatTmp)) :=
  [.under .curr [loadTopHalf high src, loadBottomHalf low src]]

def takeAbs : List (Item 32 (Reg FloatTmp)) :=
  [.under .curr [.alu1 .MOV tmp_high (.reg high)],
    .under .all [.CMP .GE false (.reg tmp_high) (.imm 0x80000000)],
    .under .flagged (I64Neg high low tmp)]

def putSign : List (Item 32 (Reg FloatTmp)) :=
  [.under .all [.CMP .GE false (.reg tmp_high) (.imm 0x80000000)],
    .under .flagged [.alu2 .OR dest (.reg dest) (.imm 0x80000000)]]

end

/-- `GEN_PREDICATE_ALIGN1_ALL8H` and `GEN_PREDICATE_ALIGN1_ALL16H` -/
def allFlags (simdWidth : ℕ) (s : State 32 (Reg FloatTmp)) : Bool :=
  (List.range simdWidth).all s.flag

section

variable (convert : BitVec 32 → BitVec 32) (mask : ℕ → Bool) (curr : Control) (simdWidth : ℕ)

def UnsignedI64ToFloat (s : State 32 (Reg FloatTmp)) : State 32 (Reg FloatTmp) :=
  let s := run mask (emit curr (lowConvert convert)) s
  if allFlags simdWidth s then s
  else
    let s := run mask (emit curr splitLarge) s
    let s := if allFlags simdWidth s then s else run mask (emit curr splitSmall) s
    run mask (emit curr roundOff) s

/-- `emitI64ToFloatInstruction` -/
def runI64ToFloat (signed : Bool) (src : ℕ) (s : State 32 (Reg FloatTmp)) :
    State 32 (Reg FloatTmp) :=
  let s := run mask (emit curr (loadHalves src)) s
  if !signed then UnsignedI64ToFloat convert mask curr simdWidth s
  else
    run mask (emit curr putSign)
      (UnsignedI64ToFloat convert mask curr simdWidth (run mask (emit curr takeAbs) s))

end

/-! ### Parts of the code in one lane -/

section

variable (active : Bool) (L : Lane 32 (Reg FloatTmp))

open FloatTmp

/-- The position of the leading bit of `high`, and 32 if there is none. -/
def leading (high : BitVec 32) : BitVec 32 := -(Alu1.FBH.eval high) + 31

theorem lane_lowConvert (convert : BitVec 32 → BitVec 32) :
    let L' := laneRun active (lowConvert convert) L
    L'.reg exp = leading (L.reg high) ∧ L'.reg high = L.reg high ∧ L'.reg low = L.reg low ∧
      L'.reg tmp_high = L.reg tmp_high ∧ L'.flag = (leading (L.reg high) == 32) ∧
      L'.reg dest = bif active && leading (L.reg high) == 32 then convert (L.reg low)
        else L.reg dest := by
  simp [lowConvert, Cond.eval, leading]

/-- In a lane of less than 32 bits nothing more happens. -/
theorem skip_splitAbove (shift : BitVec 32) (hgt : Cond.G.eval false (L.reg exp) 23#32 = true)
    (hlt : Cond.L.eval false (L.reg exp) 32#32 = false) :
    laneRun active (splitAbove shift) L = ⟨L.reg, false⟩ := by
  simp [splitAbove, hgt, hlt, write_false]

theorem skip_roundOff (hle : Cond.LE.eval false (L.reg exp) 31#32 = false) :
    laneRun active roundOff L = ⟨L.reg, false⟩ := by
  simp [roundOff, hle, write_false]

theorem lane_splitAbove (shift : BitVec 32) (hgt : Cond.G.eval false (L.reg exp) 23#32 = true)
    (hlt : Cond.L.eval false (L.reg exp) 32#32 = true) :
    let t := L.reg exp + shift
    let L' := laneRun active (splitAbove shift) L
    L'.reg exp = L.reg exp ∧ L'.flag = true ∧
      L'.reg mantissa = L.reg high >>> (t.toNat % 32) &&& 0x7fffff ∧
      L'.reg high = L.reg high <<< ((-t + 32).toNat % 32) ||| L.reg low >>> (t.toNat % 32) ∧
      L'.reg low = L.reg low <<< ((-t + 32).toNat % 32) := by
  simp [splitAbove, hgt, hlt]

theorem skip_splitAbove_small (shift : BitVec 32)
    (hgt : Cond.G.eval false (L.reg exp) 23#32 = false) :
    laneRun active (splitAbove shift) L = ⟨L.reg, false⟩ := by
  simp [splitAbove, hgt, write_false]

theorem skip_splitSmall (heq : Cond.Z.eval false (L.reg exp) 23#32 = false)
    (hlt : Cond.L.eval false (L.reg exp) 23#32 = false)
    (hle : Cond.LE.eval false (L.reg exp) 23#32 = false) :
    (laneRun active splitSmall L).reg = L.reg := by
  simp [splitSmall, heq, hlt, hle, write_false]

/-- What is shifted out of `low`. -/
def lowPart (e low : BitVec 32) : BitVec 32 :=
  if e = 23 then 0 else low >>> ((e + 9).toNat % 32)

theorem lane_splitSmall (hle : Cond.LE.eval false (L.reg exp) 23#32 = true)
    (hlt : Cond.L.eval false (L.reg exp) 23#32 = !Cond.Z.eval false (L.reg exp) 23#32) :
    let t := -L.reg exp + 23
    let L' := laneRun active splitSmall L
    L'.reg exp = L.reg exp ∧
      L'.reg mantissa =
        (L.reg high <<< (t.toNat % 32) ||| lowPart (L.reg exp) (L.reg low)) &&& 0x7fffff ∧
      L'.reg high = L.reg low <<< (t.toNat % 32) ∧ L'.reg low = 0 := by
  cases hZ : Cond.Z.eval false (L.reg exp) 23#32 with
  | true =>
    have hlow : lowPart (L.reg exp) (L.reg low) = 0#32 := if_pos (beq_iff_eq.mp hZ)
    rw [hZ] at hlt
    simp [splitSmall, hle, hlt, hZ, hlow]
  | false =>
    have hlow : lowPart (L.reg exp) (L.reg low) = L.reg low >>> ((L.reg exp + 9).toNat % 32) :=
      if_neg (beq_eq_false_iff_ne.mp hZ)
    rw [hZ] at hlt
    simp [splitSmall, hle, hlt, hZ, hlow]

/-- The float before the ties are corrected. -/
def unrounded (L : Lane 32 (Reg FloatTmp)) : BitVec 32 :=
  (L.reg exp + 159) <<< 23 ||| L.reg mantissa

theorem lane_roundOff (hle : Cond.LE.eval false (L.reg exp) 31#32 = true) :
    (laneRun active roundOff L).reg dest =
      bif Cond.GE.eval false (L.reg high) 2147483648#32 then
        bif Cond.Z.eval false (L.reg high) 2147483648#32 && Cond.Z.eval false (L.reg low) 0#32
          then (unrounded L + 1) &&& 0xfffffffe
        else unrounded L + 1
      else unrounded L := by
  cases hge : Cond.GE.eval false (L.reg high) 2147483648#32 with
  | true =>
    -- the test for a tie counts only where the float is rounded up
    cases hhalf : Cond.Z.eval false (L.reg high) 2147483648#32 with
    | true =>
      cases hzero : Cond.Z.eval false (L.reg low) 0#32 with
      | true =>
        simp [-BitVec.shiftLeft_add_distrib, roundOff, unrounded, hle, hge, hhalf, hzero]
      | false =>
        simp [-BitVec.shiftLeft_add_distrib, roundOff, unrounded, hle, hge, hhalf, hzero]
    | false => simp [-BitVec.shiftLeft_add_distrib, roundOff, unrounded, hle, hge, hhalf]
  | false => simp [-BitVec.shiftLeft_add_distrib, roundOff, unrounded, hle, hge]

/-- The sign stays in `tmp_high`. -/
theorem tmp_high_laneRun (shift : BitVec 32) :
    (laneRun active (splitAbove shift) L).reg tmp_high = L.reg tmp_high ∧
      (laneRun active splitSmall L).reg tmp_high = L.reg tmp_high ∧
      (laneRun active roundOff L).reg tmp_high = L.reg tmp_high := by
  refine ⟨?_, ?_, ?_⟩
  · simp [splitAbove]
  · simp [splitSmall]
  · simp [-BitVec.shiftLeft_add_distrib, roundOff]

/-! ### The numbers -/

theorem leading_zero : leading 0 = 32 := by decide

theorem toNat_leading {v : BitVec 32} (hv : v ≠ 0) : (leading v).toNat = v.toNat.log2 := by
  have hne : v.toNat ≠ 0 := fun h => hv (BitVec.eq_of_toNat_eq h)
  have hle := BitVec.two_pow_sub_clz_le_toNat_of_ne_zero (by decide) hv
  have hlt := BitVec.toNat_lt_two_pow_sub_clz (x := v)
  have hclz : v.clz.toNat < 32 := BitVec.clz_lt_iff_ne_zero.mpr hv
  have hlog : v.toNat.log2 = 31 - v.clz.toNat :=
    (Nat.log2_eq_iff hne).mpr ⟨hle, by convert hlt using 2; omega⟩
  have h31 : (31 : BitVec 32).toNat = 31 := rfl
  rw [leading, Alu1.eval, if_neg hv, hlog, BitVec.toNat_add, BitVec.toNat_neg, h31]
  omega

theorem toNat_and_fraction (v : BitVec 32) : (v &&& 0x7fffff).toNat = v.toNat % 2 ^ 23 := by
  rw [BitVec.toNat_and]
  exact Nat.and_two_pow_sub_one_eq_mod _ 23

theorem toNat_and_even (v : BitVec 32) : (v &&& 0xfffffffe).toNat = v.toNat / 2 * 2 := by
  have hlt := v.isLt
  have hdiv : (v.toNat &&& 0xfffffffe) / 2 = v.toNat / 2 := by
    rw [Nat.and_div_two]
    refine (Nat.and_two_pow_sub_one_eq_mod _ 31).trans (Nat.mod_eq_of_lt ?_)
    omega
  have hmod : (v.toNat &&& 0xfffffffe) % 2 = 0 := by
    rw [show (2 : ℕ) = 2 ^ 1 from rfl, Nat.and_mod_two_pow]
    exact Nat.and_zero _
  rw [BitVec.toNat_and]
  show v.toNat &&& 0xfffffffe = _
  omega

/-- The number `n` is parted behind its mantissa; its upper dword has its leading bit at `k`. -/
structure Parted (n k : ℕ) (L : Lane 32 (Reg FloatTmp)) : Prop where
  exp : (L.reg exp).toNat = k
  mantissa : (L.reg mantissa).toNat = n / 2 ^ (k + 9) % 2 ^ 23
  rest : (pair L high low).toNat = n % 2 ^ (k + 9) * 2 ^ (55 - k)

/-- What is shifted out of 64 bits by less than 64. -/
theorem toNat_shiftLeft_rest (v : BitVec 64) {k : ℕ} (hk : k ≤ 55) :
    (v <<< (55 - k)).toNat = v.toNat % 2 ^ (k + 9) * 2 ^ (55 - k) := by
  have hsplit : 2 ^ 64 = 2 ^ (k + 9) * 2 ^ (55 - k) := by
    rw [← Nat.pow_add]
    congr 1
    omega
  rw [BitVec.toNat_shiftLeft, Nat.shiftLeft_eq, hsplit, Nat.mul_mod_mul_right]

theorem toNat_pair_div (k : ℕ) :
    (L.reg high).toNat / 2 ^ k = (pair L high low).toNat / 2 ^ (k + 32) := by
  have hlt := (L.reg low).isLt
  rw [pair, SplitWord.toNat_append, Nat.add_comm k, Nat.pow_add, ← Nat.div_div_eq_div_mul]
  congr 1
  omega

section

variable {k : ℕ} (hexp : (L.reg exp).toNat = k)

include hexp

theorem parted_splitAbove (hlo : 23 < k) (hhi : k < 32) {shift : BitVec 32}
    (hshift : shift.toNat = 2 ^ 32 - 23) :
    Parted (pair L high low).toNat k (laneRun active (splitAbove shift) L) := by
  have h32 : (32#32).toNat = 32 := rfl
  have h23 : (23#32).toNat = 23 := rfl
  have hsum : (L.reg exp + shift).toNat = k - 23 := by
    rw [BitVec.toNat_add, hexp, hshift]
    omega
  have ht : (L.reg exp + shift).toNat % 32 = k - 23 := by
    omega
  have hback : (-(L.reg exp + shift) + 32#32).toNat % 32 = 55 - k := by
    rw [BitVec.toNat_add, BitVec.toNat_neg, hsum, h32]
    omega
  have hgt : Cond.G.eval false (L.reg exp) 23#32 = true := decide_eq_true (by omega)
  have hlt : Cond.L.eval false (L.reg exp) 32#32 = true := decide_eq_true (by omega)
  obtain ⟨he, -, hm, hh, hl⟩ := lane_splitAbove active L shift hgt hlt
  have hpair : pair (laneRun active (splitAbove shift) L) high low =
      pair L high low <<< (55 - k) := by
    rw [pair, hh, hl, ht, show (32 : BitVec 32) = 32#32 from rfl, hback, pair,
      SplitWord.shiftLeft_append _ _ (by omega), show 32 - (55 - k) = k - 23 by omega]
  refine ⟨he ▸ hexp, ?_, ?_⟩
  · rw [hm, toNat_and_fraction, ht, BitVec.toNat_ushiftRight, Nat.shiftRight_eq_div_pow,
      toNat_pair_div, show k - 23 + 32 = k + 9 by omega]
  · rw [hpair, toNat_shiftLeft_rest _ (by omega)]

theorem parted_splitSmall (hhi : k ≤ 23) :
    Parted (pair L high low).toNat k (laneRun active splitSmall L) := by
  have h23 : (23#32).toNat = 23 := rfl
  have ht : (-L.reg exp + 23#32).toNat % 32 = 23 - k := by
    rw [BitVec.toNat_add, BitVec.toNat_neg, hexp, h23]
    omega
  have hle : Cond.LE.eval false (L.reg exp) 23#32 = true := decide_eq_true (by omega)
  have hlt : Cond.L.eval false (L.reg exp) 23#32 = !Cond.Z.eval false (L.reg exp) 23#32 := by
    have hne : (L.reg exp).ult 23#32 = (L.reg exp != 23#32) := by
      rw [Bool.eq_iff_iff, BitVec.ult, decide_eq_true_iff, bne_iff_ne, Ne, ← BitVec.toNat_inj]
      omega
    exact hne
  have hpart : lowPart (L.reg exp) (L.reg low) = L.reg low >>> (32 - (23 - k)) := by
    rw [lowPart]
    split
    · next heq =>
      have hk : k = 23 := by
        rw [← hexp, heq]
        rfl
      rw [hk]
      exact (BitVec.ushiftRight_eq_zero le_rfl).symm
    · next hne =>
      have hk : k ≠ 23 := fun hk => hne (BitVec.eq_of_toNat_eq (hexp.trans hk))
      have hsum : (L.reg exp + 9#32).toNat % 32 = 32 - (23 - k) := by
        have h9 : (9#32).toNat = 9 := rfl
        rw [BitVec.toNat_add, hexp, h9]
        omega
      rw [show (9 : BitVec 32) = 9#32 from rfl, hsum]
  obtain ⟨he, hm, hh, hl⟩ := lane_splitSmall active L hle hlt
  have hpair : pair (laneRun active splitSmall L) high low = pair L high low <<< (55 - k) := by
    rw [pair, hh, hl, show (23 : BitVec 32) = 23#32 from rfl, ht, pair,
      SplitWord.shiftLeft_append_of_le _ _ (by omega), show 55 - k - 32 = 23 - k by omega]
    rfl
  refine ⟨he ▸ hexp, ?_, ?_⟩
  · -- the upper dword of the shifted number
    have htop : (L.reg high <<< (23 - k) ||| L.reg low >>> (32 - (23 - k))).toNat =
        (pair L high low <<< (23 - k)).toNat / 2 ^ 32 := by
      rw [pair, SplitWord.shiftLeft_append _ _ (by omega), SplitWord.toNat_append]
      have := (L.reg low <<< (23 - k)).isLt
      omega
    have hpow : 2 ^ 32 = 2 ^ (k + 9) * 2 ^ (23 - k) := by
      rw [← Nat.pow_add]
      congr 1
      omega
    have hdiv : (pair L high low).toNat * 2 ^ (23 - k) / 2 ^ 32 =
        (pair L high low).toNat / 2 ^ (k + 9) := by
      rw [hpow, Nat.mul_div_mul_right _ _ (Nat.two_pow_pos _)]
    rw [hm, toNat_and_fraction, show (23 : BitVec 32) = 23#32 from rfl, ht, hpart, htop,
      BitVec.toNat_shiftLeft, Nat.shiftLeft_eq, ← hdiv]
    omega
  · rw [hpair, toNat_shiftLeft_rest _ (by omega)]

end

/-- Two dwords that hold `r / K`, compared with a half. -/
theorem half_le {H D r K P : ℕ} (hD : D < 2 ^ 32) (hP : 0 < P) (hKP : 2 ^ 64 = K * P)
    (hrest : H * 2 ^ 32 + D = r * P) : 2 ^ 31 ≤ H ↔ K ≤ 2 * r := by
  rw [← @Nat.mul_le_mul_right_iff K _ P hP, ← hKP, Nat.mul_assoc, ← hrest]
  omega

theorem half_eq {H D r K P : ℕ} (hD : D < 2 ^ 32) (hP : 0 < P) (hKP : 2 ^ 64 = K * P)
    (hrest : H * 2 ^ 32 + D = r * P) : H = 2 ^ 31 ∧ D = 0 ↔ 2 * r = K := by
  rw [← @Nat.mul_left_inj P (2 * r) K hP.ne', ← hKP, Nat.mul_assoc, ← hrest]
  omega

section

variable {n k : ℕ} (hlog : n.log2 = k + 32)

include hlog

theorem quotient_bounds (hn : n ≠ 0) : 2 ^ 23 ≤ n / 2 ^ (k + 9) ∧ n / 2 ^ (k + 9) < 2 ^ 24 := by
  rw [Nat.le_div_iff_mul_le (Nat.two_pow_pos _), Nat.div_lt_iff_lt_mul (Nat.two_pow_pos _),
    ← Nat.pow_add, ← Nat.pow_add, show 23 + (k + 9) = n.log2 by omega,
    show 24 + (k + 9) = n.log2 + 1 by omega]
  exact ⟨Nat.log2_self_le hn, Nat.lt_log2_self⟩

/-- The fields without rounding. -/
theorem toNat_unrounded (hk : k < 32) (hn : n ≠ 0) (hexp : (L.reg exp).toNat = k)
    (hm : (L.reg mantissa).toNat = n / 2 ^ (k + 9) % 2 ^ 23) :
    (unrounded L).toNat = (n.log2 + 126) * 2 ^ 23 + n / 2 ^ (k + 9) := by
  obtain ⟨hlo, hhi⟩ := quotient_bounds hlog hn
  have h159 : (159 : BitVec 32).toNat = 159 := rfl
  have hfield : (L.reg exp + 159).toNat = k + 159 := by
    rw [BitVec.toNat_add, hexp, h159]
    omega
  have hmlt : (L.reg mantissa).toNat < 2 ^ 23 := by
    omega
  have hshift : ((L.reg exp + 159) <<< 23).toNat = (k + 159) <<< 23 := by
    rw [BitVec.toNat_shiftLeft, hfield]
    refine Nat.mod_eq_of_lt ?_
    rw [Nat.shiftLeft_eq]
    omega
  rw [unrounded, BitVec.toNat_or, hshift, ← Nat.shiftLeft_add_eq_or_of_lt hmlt, Nat.shiftLeft_eq]
  omega

/-- The mantissa and what is behind it give the rounded number. -/
theorem dest_roundOff (hk : k < 32) (hn : n ≠ 0) (hparted : Parted n k L) :
    (laneRun active roundOff L).reg dest = SingleFloat.encode n := by
  obtain ⟨hexp, hm, hrest⟩ := hparted
  obtain ⟨hlo, hhi⟩ := quotient_bounds hlog hn
  have h31 : (31#32).toNat = 31 := rfl
  have hhalf : (2147483648#32).toNat = 2 ^ 31 := rfl
  have hzero : (0#32).toNat = 0 := rfl
  have hone : (1 : BitVec 32).toNat = 1 := rfl
  have hle : Cond.LE.eval false (L.reg exp) 31#32 = true := decide_eq_true (by omega)
  have hpow : 2 ^ 64 = 2 ^ (k + 9) * 2 ^ (55 - k) := by
    rw [← Nat.pow_add]
    congr 1
    omega
  rw [pair, SplitWord.toNat_append] at hrest
  have hup : Cond.GE.eval false (L.reg high) 2147483648#32 =
      decide (2 ^ (k + 9) ≤ 2 * (n % 2 ^ (k + 9))) := by
    refine decide_eq_decide.mpr ?_
    rw [hhalf]
    exact half_le (L.reg low).isLt (Nat.two_pow_pos _) hpow hrest
  have htie : (Cond.Z.eval false (L.reg high) 2147483648#32 &&
      Cond.Z.eval false (L.reg low) 0#32) = decide (2 * (n % 2 ^ (k + 9)) = 2 ^ (k + 9)) := by
    rw [Bool.eq_iff_iff, Bool.and_eq_true, decide_eq_true_iff]
    show (L.reg high == 2147483648#32) = true ∧ (L.reg low == 0#32) = true ↔ _
    rw [beq_iff_eq, beq_iff_eq, ← BitVec.toNat_inj, ← BitVec.toNat_inj, hhalf, hzero]
    exact half_eq (L.reg low).isLt (Nat.two_pow_pos _) hpow hrest
  have hunrounded := toNat_unrounded L hlog hk hn hexp hm
  have hnext : (unrounded L + 1).toNat = (unrounded L).toNat + 1 := by
    rw [BitVec.toNat_add, hone]
    omega
  have hencode : (SingleFloat.encode n).toNat =
      (n.log2 + 126) * 2 ^ 23 + SingleFloat.roundShift n (k + 9) := by
    rw [SingleFloat.toNat_encode hn (by omega), SingleFloat.significand, if_neg (by omega),
      show n.log2 - 23 = k + 9 by omega]
  apply BitVec.eq_of_toNat_eq
  rw [lane_roundOff active L hle, hup, htie, hencode, SingleFloat.roundShift]
  by_cases hge : 2 ^ (k + 9) ≤ 2 * (n % 2 ^ (k + 9))
  · rw [decide_eq_true hge, cond_true]
    by_cases heq : 2 * (n % 2 ^ (k + 9)) = 2 ^ (k + 9)
    · -- a tie: the last bit is cleared
      rw [decide_eq_true heq, cond_true, toNat_and_even, hnext, hunrounded]
      split
      · omega
      · omega
    · rw [decide_eq_false heq, cond_false, hnext, hunrounded, if_pos (.inl (by omega)),
        Nat.add_assoc]
  · rw [decide_eq_false hge, cond_false, hunrounded, if_neg (by omega)]

end

end

theorem Parted.of_reg {n k : ℕ} {L L' : Lane 32 (Reg FloatTmp)} (hreg : L'.reg = L.reg)
    (hparted : Parted n k L) : Parted n k L' := by
  obtain ⟨hexp, hm, hrest⟩ := hparted
  rw [← hreg] at hexp hm
  rw [pair, ← hreg] at hrest
  exact ⟨hexp, hm, hrest⟩

/-- The leading bit of two dwords is that of the upper one. -/
theorem log2_pair (L : Lane 32 (Reg FloatTmp)) (hhigh : (L.reg FloatTmp.high).toNat ≠ 0) :
    (pair L FloatTmp.high FloatTmp.low).toNat.log2 = (L.reg FloatTmp.high).toNat.log2 + 32 := by
  have hlow := (L.reg FloatTmp.low).isLt
  have hlo := Nat.log2_self_le hhigh
  have hhi := @Nat.lt_log2_self (L.reg FloatTmp.high).toNat
  have hpow : ∀ k, 2 ^ (k + 32) = 2 ^ k * 2 ^ 32 := fun k => Nat.pow_add 2 k 32
  have hlo' := hpow (L.reg FloatTmp.high).toNat.log2
  have hhi' := hpow ((L.reg FloatTmp.high).toNat.log2 + 1)
  rw [pair, SplitWord.toNat_append, Nat.log2_eq_iff (by omega), Nat.add_right_comm]
  omega

/-! ### The whole code -/

section

open FloatTmp

theorem allFlags_eq_false {simdWidth l : ℕ} {s : State 32 (Reg FloatTmp)} (hl : l < simdWidth)
    (hflag : (s.lane l).flag = false) : allFlags simdWidth s = false := by
  rw [allFlags, List.all_eq_false]
  exact ⟨l, List.mem_range.mpr hl, by simpa [State.lane] using hflag⟩

variable {mask : ℕ → Bool} {curr : Control} {simdWidth l : ℕ} (hw : Fits curr)
  (hl : l < curr.execWidth) (hsimd : curr.execWidth ≤ simdWidth) (hp : curr.predicated = false)
  (hon : (curr.noMask || mask l) = true) (convert : BitVec 32 → BitVec 32)
  (s : State 32 (Reg FloatTmp))

include hw hl hp hon

/-- Behind the first jump, in a lane of less than 32 bits. -/
theorem lane_skipped (hexp : (s.lane l).reg exp = 32) :
    let s2 := run mask (emit curr splitLarge) s
    let s3 := if allFlags simdWidth s2 then s2 else run mask (emit curr splitSmall) s2
    ((run mask (emit curr roundOff) s3).lane l).reg = (s.lane l).reg := by
  intro s2 s3
  have hG : Cond.G.eval false 32#32 23#32 = true := by decide
  have hL : Cond.L.eval false 32#32 32#32 = false := by decide
  have hZ : Cond.Z.eval false 32#32 23#32 = false := by decide
  have hL' : Cond.L.eval false 32#32 23#32 = false := by decide
  have hLE : Cond.LE.eval false 32#32 23#32 = false := by decide
  have hLE' : Cond.LE.eval false 32#32 31#32 = false := by decide
  rw [show (32 : BitVec 32) = 32#32 from rfl] at hexp
  have h2 : (s2.lane l).reg = (s.lane l).reg := by
    rw [lane_run hw hl hp hon, splitLarge, skip_splitAbove _ _ _ (hexp ▸ hG) (hexp ▸ hL)]
  have h3 : (s3.lane l).reg = (s.lane l).reg := by
    rw [← h2] at hexp ⊢
    by_cases hjump : allFlags simdWidth s2 = true
    · exact congrArg (fun t => (State.lane t l).reg) (if_pos hjump)
    · have hrun : s3 = run mask (emit curr splitSmall) s2 := if_neg hjump
      rw [hrun, lane_run hw hl hp hon]
      exact skip_splitSmall _ _ (hexp ▸ hZ) (hexp ▸ hL') (hexp ▸ hLE)
  rw [lane_run hw hl hp hon, skip_roundOff _ _ ?_]
  · exact h3
  · rw [h3, hexp]
    exact hLE'

include hsimd in
/-- Behind the first jump, in any other lane. -/
theorem lane_rounded (hhigh : (s.lane l).reg high ≠ 0)
    (hexp : (s.lane l).reg exp = leading ((s.lane l).reg high)) :
    let s2 := run mask (emit curr splitLarge) s
    let s3 := if allFlags simdWidth s2 then s2 else run mask (emit curr splitSmall) s2
    let L := (run mask (emit curr roundOff) s3).lane l
    L.reg tmp_high = (s.lane l).reg tmp_high ∧
      L.reg dest = SingleFloat.encode (pair (s.lane l) high low).toNat := by
  intro s2 s3 L
  have hpair : (pair (s.lane l) high low).toNat =
      ((s.lane l).reg high).toNat * 2 ^ 32 + ((s.lane l).reg low).toNat :=
    SplitWord.toNat_append _ _
  have hne : ((s.lane l).reg high).toNat ≠ 0 := fun h => hhigh (BitVec.eq_of_toNat_eq h)
  have hk : ((s.lane l).reg high).toNat.log2 < 32 :=
    (Nat.log2_lt hne).mpr ((s.lane l).reg high).isLt
  have hlog := log2_pair (s.lane l) hne
  have hexp' := (congrArg BitVec.toNat hexp).trans (toNat_leading hhigh)
  have h2 : s2.lane l = laneRun (mask l) splitLarge (s.lane l) := lane_run hw hl hp hon _ _
  obtain ⟨htmp, htmp', htmp''⟩ := tmp_high_laneRun (mask l) (s.lane l) (-23)
  have h3 : (s3.lane l).reg tmp_high = (s.lane l).reg tmp_high ∧
      Parted (pair (s.lane l) high low).toNat ((s.lane l).reg high).toNat.log2 (s3.lane l) := by
    by_cases hlarge : 23 < ((s.lane l).reg high).toNat.log2
    · have hparted : Parted _ _ (s2.lane l) :=
        h2 ▸ parted_splitAbove (mask l) (s.lane l) hexp' hlarge hk rfl
      have hsame : (s3.lane l).reg = (s2.lane l).reg := by
        by_cases hjump : allFlags simdWidth s2 = true
        · exact congrArg (fun t => (State.lane t l).reg) (if_pos hjump)
        · have hrun : s3 = run mask (emit curr splitSmall) s2 := if_neg hjump
          have h23 : (23#32).toNat = 23 := rfl
          have he := hparted.exp
          rw [hrun, lane_run hw hl hp hon]
          refine skip_splitSmall _ _ (beq_eq_false_iff_ne.mpr ?_) (decide_eq_false ?_)
            (decide_eq_false ?_)
          · intro heq
            rw [heq] at he
            omega
          · omega
          · omega
      rw [hsame]
      refine ⟨?_, hparted.of_reg hsame⟩
      rw [h2]
      exact htmp
    · -- the flag of the lane is off, and the second jump is not taken
      have hgt : Cond.G.eval false ((s.lane l).reg exp) 23#32 = false := by
        have h23 : (23#32).toNat = 23 := rfl
        exact decide_eq_false (by omega)
      rw [splitLarge, skip_splitAbove_small _ _ _ hgt] at h2
      have hflag : allFlags simdWidth s2 = false :=
        allFlags_eq_false (hl.trans_le hsimd) (congrArg Lane.flag h2)
      have hrun : s3 = run mask (emit curr splitSmall) s2 := if_neg (by simp [hflag])
      rw [hrun, lane_run hw hl hp hon, h2]
      exact ⟨(tmp_high_laneRun _ _ 0).2.1,
        parted_splitSmall (mask l) ⟨(s.lane l).reg, false⟩ hexp' (by omega)⟩
  have hrun : L = laneRun (mask l) roundOff (s3.lane l) := lane_run hw hl hp hon _ _
  rw [hrun]
  exact ⟨(tmp_high_laneRun _ _ 0).2.2.trans h3.1, dest_roundOff _ _ hlog hk (by omega) h3.2⟩

include hsimd in
/-- `UnsignedI64ToFloat` in an executed lane. -/
theorem lane_UnsignedI64ToFloat :
    let L := (UnsignedI64ToFloat convert mask curr simdWidth s).lane l
    L.reg tmp_high = (s.lane l).reg tmp_high ∧
      L.reg dest = if (s.lane l).reg high = 0 then
          bif mask l then convert ((s.lane l).reg low) else (s.lane l).reg dest
        else SingleFloat.encode (pair (s.lane l) high low).toNat := by
  intro L
  obtain ⟨he, hh, hlo, ht, hf, hd⟩ := lane_lowConvert (mask l) (s.lane l) convert
  rw [← lane_run hw hl hp hon] at he hh hlo ht hf hd
  have hL : L = (UnsignedI64ToFloat convert mask curr simdWidth s).lane l := rfl
  rw [UnsignedI64ToFloat] at hL
  generalize run mask (emit curr (lowConvert convert)) s = s1 at he hh hlo ht hf hd hL
  by_cases hhigh : (s.lane l).reg high = 0
  · rw [hhigh, leading_zero] at he hf hd
    have hreg : L.reg = (s1.lane l).reg := by
      by_cases hjump : allFlags simdWidth s1 = true
      · rw [hL, if_pos hjump]
      · rw [hL, if_neg hjump]
        exact lane_skipped hw hl hp hon s1 he
    rw [hreg, ht, hd, if_pos hhigh]
    simp
  · have hne : leading ((s.lane l).reg high) ≠ 32 := by
      intro h
      have hlog := toNat_leading hhigh
      rw [h] at hlog
      have hlt : ((s.lane l).reg high).toNat.log2 < 32 :=
        (Nat.log2_lt fun h => hhigh (BitVec.eq_of_toNat_eq h)).mpr ((s.lane l).reg high).isLt
      exact absurd hlog.symm hlt.ne
    have hflag : allFlags simdWidth s1 = false :=
      allFlags_eq_false (hl.trans_le hsimd) (hf.trans (beq_eq_false_iff_ne.mpr hne))
    obtain ⟨htmp, hdest⟩ := lane_rounded hw hl hsimd hp hon s1 (hh.symm ▸ hhigh) (hh.symm ▸ he)
    rw [pair, hh, hlo] at hdest
    rw [hL, ← ht, if_neg hhigh, if_neg (by simp [hflag])]
    exact ⟨htmp, hdest⟩

end

/-! ### Signs -/

section

open FloatTmp

variable (active : Bool) (L : Lane 32 (Reg FloatTmp))

theorem lane_loadHalves (src : ℕ) :
    let L' := laneRun active (loadHalves src) L
    pair L' high low = long L src ∧ L'.reg dest = L.reg dest := by
  simp [loadHalves, pair, long]

theorem ge_msb (v u : BitVec 32) : (0x80000000#32).ule v = (v ++ u).msb := by
  rw [SplitWord.msb_append _ _ (by decide), BitVec.msb_eq_decide]
  rfl

theorem lane_takeAbs :
    let L' := laneRun active takeAbs L
    pair L' high low = (pair L high low).abs ∧ L'.reg dest = L.reg dest ∧
      L'.reg tmp_high = L.reg high := by
  have hmsb : (0x80000000#32).ule (L.reg high) = (pair L high low).msb := ge_msb _ _
  rw [takeAbs, laneRun_cons, laneRun_cons, laneRun_cons, laneRun_nil, laneItem]
  refine ⟨?_, ?_, ?_⟩
  · rw [pair_I64Neg active _ (by decide) (by decide) (by decide), BitVec.abs, ← hmsb]
    simp [Cond.eval, pair, cond_eq_ite]
  · rw [reg_I64Neg active _ _ (by decide) (by decide) (by decide)]
    simp
  · rw [reg_I64Neg active _ _ (by decide) (by decide) (by decide)]
    simp

theorem lane_putSign :
    (laneRun active putSign L).reg dest =
      bif (0x80000000#32).ule (L.reg tmp_high) then L.reg dest ||| 0x80000000 else L.reg dest := by
  simp [putSign, Cond.eval]

end

/-! ### Correctness -/

section

open FloatTmp

/-- What an executed lane leaves of `old`, the word in the destination. -/
def left (active signed : Bool) (v : BitVec 64) (old : BitVec 32) : BitVec 32 :=
  if (value signed v).natAbs < 2 ^ 32 ∧ active = false then
    bif signed && v.msb then old ||| 0x80000000 else old
  else SingleFloat.encode (value signed v)

/-- A sign is put to the float of a magnitude. -/
theorem encode_toInt (v : BitVec 64) :
    SingleFloat.encode v.toInt = bif v.msb then SingleFloat.encode v.toInt.natAbs ||| 0x80000000
      else SingleFloat.encode v.toInt.natAbs := by
  rw [BitVec.msb_eq_toInt]
  by_cases hneg : v.toInt < 0
  · have habs : v.toInt = -(v.toInt.natAbs : ℤ) := by
      omega
    rw [decide_eq_true hneg, cond_true, ← SingleFloat.encode_neg (by omega), ← habs]
  · have habs : v.toInt = (v.toInt.natAbs : ℤ) := by
      omega
    rw [decide_eq_false hneg, cond_false, ← habs]

variable {mask : ℕ → Bool} {curr : Control} {simdWidth l : ℕ} (hw : Fits curr)
  (hl : l < curr.execWidth) (hsimd : curr.execWidth ≤ simdWidth) (hp : curr.predicated = false)
  (hon : (curr.noMask || mask l) = true) {convert : BitVec 32 → BitVec 32}
  (hconvert : ∀ u, convert u = SingleFloat.encode u.toNat)

include hw hl hsimd hp hon hconvert

theorem lane_magnitude (s : State 32 (Reg FloatTmp)) {n : ℕ}
    (hn : (pair (s.lane l) high low).toNat = n) :
    let L := (UnsignedI64ToFloat convert mask curr simdWidth s).lane l
    L.reg tmp_high = (s.lane l).reg tmp_high ∧
      L.reg dest = if n < 2 ^ 32 ∧ mask l = false then (s.lane l).reg dest
        else SingleFloat.encode n := by
  obtain ⟨htmp, hdest⟩ := lane_UnsignedI64ToFloat hw hl hsimd hp hon convert s
  refine ⟨htmp, hdest.trans ?_⟩
  have hlow := ((s.lane l).reg low).isLt
  have hsum := hn
  rw [pair, SplitWord.toNat_append] at hsum
  by_cases hhigh : (s.lane l).reg high = 0
  · have hzero : ((s.lane l).reg high).toNat = 0 := congrArg BitVec.toNat hhigh
    have hsmall : ((s.lane l).reg low).toNat = n := by
      omega
    rw [if_pos hhigh, hconvert, hsmall]
    cases hmask : mask l with
    | true => simp
    | false => rw [cond_false, if_pos ⟨by omega, rfl⟩]
  · have hne : ((s.lane l).reg high).toNat ≠ 0 := fun h => hhigh (BitVec.eq_of_toNat_eq h)
    rw [if_neg hhigh, hn, if_neg (by omega)]

theorem dest_i64ToFloat (signed : Bool) (src : ℕ) (s : State 32 (Reg FloatTmp)) :
    (runI64ToFloat convert mask curr simdWidth signed src s).reg dest l =
      left (mask l) signed (long (s.lane l) src) (s.reg dest l) := by
  have hload := lane_loadHalves (mask l) (s.lane l) src
  rw [← lane_run hw hl hp hon] at hload
  show ((runI64ToFloat convert mask curr simdWidth signed src s).lane l).reg dest = _
  rw [runI64ToFloat, left]
  generalize run mask (emit curr (loadHalves src)) s = s1 at hload
  obtain ⟨hpair, hold⟩ := hload
  cases signed with
  | false =>
    have hvalue : value false (long (s.lane l) src) = (long (s.lane l) src).toNat := rfl
    have hdest := (lane_magnitude hw hl hsimd hp hon hconvert s1 (congrArg BitVec.toNat hpair)).2
    rw [hold] at hdest
    simp only [Bool.not_false, if_true]
    rw [hvalue, Int.natAbs_natCast, Bool.false_and, cond_false, hdest, State.lane]
  | true =>
    have habs := lane_takeAbs (mask l) (s1.lane l)
    rw [← lane_run hw hl hp hon] at habs
    obtain ⟨habs, hold', hsign⟩ := habs
    rw [hpair] at habs
    rw [hold] at hold'
    obtain ⟨htmp, hdest⟩ := lane_magnitude hw hl hsimd hp hon hconvert _
      ((congrArg BitVec.toNat habs).trans (toNat_abs _))
    have hmsb : (0x80000000#32).ule ((s1.lane l).reg high) = (long (s.lane l) src).msb := by
      rw [← hpair]
      exact ge_msb _ _
    simp only [Bool.not_true, Bool.false_eq_true, if_false]
    rw [lane_run hw hl hp hon, lane_putSign, htmp, hsign, hmsb, hdest, hold', Bool.true_and]
    have hvalue : value true (long (s.lane l) src) = (long (s.lane l) src).toInt := rfl
    rw [hvalue, encode_toInt]
    split
    · rfl
    · rfl

/-- An executed lane gets the rounded number whatever the registers hold, if and only if its mask
bit is set or the number has more than 32 bits. -/
theorem i64ToFloat_exact_iff (signed : Bool) (src : ℕ) (v : BitVec 64) :
    (∀ s : State 32 (Reg FloatTmp), long (s.lane l) src = v →
        (runI64ToFloat convert mask curr simdWidth signed src s).reg dest l =
          SingleFloat.encode (value signed v)) ↔
      mask l = true ∨ 2 ^ 32 ≤ (value signed v).natAbs := by
  constructor
  · intro h
    by_contra hskip
    rw [not_or, Bool.not_eq_true, not_le] at hskip
    -- the destination holds another word before
    let old := ~~~ SingleFloat.encode (value signed v)
    let s : State 32 (Reg FloatTmp) :=
      ⟨fun r _ => match r with
        | .top _ => v.extractLsb' 32 32
        | .bottom _ => v.extractLsb' 0 32
        | .tmp _ => old, fun _ => 0, fun _ => false⟩
    have hlong : long (s.lane l) src = v := BitVec.extractLsb'_append_extractLsb' (w := 32)
    have hleft := h s hlong
    rw [dest_i64ToFloat hw hl hsimd hp hon hconvert, hlong, left,
      if_pos ⟨hskip.2, hskip.1⟩] at hleft
    have hold : s.reg dest l = old := rfl
    rw [hold] at hleft
    -- a sign does not make up for it
    cases hsign : signed && v.msb with
    | true =>
      rw [hsign, cond_true] at hleft
      have hbit := congrArg (·.getLsbD 0) hleft
      simp [old] at hbit
    | false =>
      rw [hsign, cond_false] at hleft
      have hbit := congrArg (·.getLsbD 0) hleft
      simp [old] at hbit
  · rintro hdone s rfl
    rw [dest_i64ToFloat hw hl hsimd hp hon hconvert, left, if_neg]
    rintro ⟨hsmall, hmask⟩
    obtain hactive | hlarge := hdone
    · exact Bool.false_ne_true (hmask.symm.trans hactive)
    · exact hsmall.not_ge hlarge

end

section

open FloatTmp

/-- A SIMD16 kernel. -/
theorem i64ToFloat_exact_sixteen :
    let s : State 32 (Reg FloatTmp) := filled 5
    (runI64ToFloat (fun u => SingleFloat.encode u.toNat) (fun _ => true) ⟨16, 0, 0, false, false⟩ 16
      true 0 s).reg dest 3 = SingleFloat.encode 0x500000005 := by
  intro s
  have hlong : long (s.lane 3) 0 = 0x500000005#64 := by decide
  have hvalue : value true 0x500000005#64 = 0x500000005 := by decide
  rw [← hvalue]
  exact (i64ToFloat_exact_iff ⟨.inr rfl, rfl, rfl⟩ (by decide) (by decide) rfl rfl (fun _ => rfl)
    true 0 0x500000005#64).mpr (.inl rfl) s hlong

/-- A uniform long while the first lane is off. -/
theorem not_i64ToFloat_masked :
    let s : State 32 (Reg FloatTmp) :=
      ⟨fun r _ => if r = .bottom 0 then 5 else 0, fun _ => 0, fun _ => false⟩
    (runI64ToFloat (fun u => SingleFloat.encode u.toNat) (fun l => l != 0) ⟨1, 0, 0, true, false⟩ 16
      false 0 s).reg dest 0 ≠ SingleFloat.encode 5 := by
  intro s
  rw [dest_i64ToFloat ⟨.inl (by decide), rfl, rfl⟩ (by decide) (by decide) rfl rfl fun _ => rfl]
  decide

end

end ToFloat

end LongCode

end Backend
