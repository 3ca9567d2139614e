/-
Saturating addition and subtraction: `emitI64SATADDInstruction` and `emitI64SATSUBInstruction`
of `GenContext`, under `add_sat` and `sub_sat` of the OpenCL library (`ocl_integer.tmpl.cl`).

The signed sequences see only one of the two overflows; the library calls them when the signs of
the operands rule the other one out.
-/
import Beignet.Backend.LongCode
import Beignet.Lib.Saturate

namespace Backend

namespace LongCode

open Simd Saturate

inductive SatTmp where
  | a | b | c | d | e
  deriving DecidableEq

section

open SatTmp

/-- The limits of a signed result, from the sign of `x` in `e` and that of the sum in `a`. -/
def signedLimits : List (Item 32 (Reg SatTmp)) :=
  [.under .all [.CMP .Z false e (.imm 1)],
    .under .flagged [.CMP .L false a (.imm 0x80000000), .alu1 .MOV a (.imm 0x80000000),
      .alu1 .MOV b (.imm 0)],
    .under .all [.CMP .Z false e (.imm 0)],
    .under .flagged [.CMP .GE false a (.imm 0x80000000), .alu1 .MOV a (.imm 0x7FFFFFFF),
      .alu1 .MOV b (.imm 0xFFFFFFFF)]]

/-- The limit of an unsigned result; `c` counts what went over it. -/
def unsignedLimit (limit : BitVec 32) : List (Item 32 (Reg SatTmp)) :=
  [.under .all [.CMP .NZ false c (.imm 0)],
    .under .flagged [.alu1 .MOV a (.imm limit), .alu1 .MOV b (.imm limit)]]

def loadLongs (signed : Bool) (x y : ℕ) : List (Item 32 (Reg SatTmp)) :=
  [.under .curr [loadTopHalf a x, loadBottomHalf b x, loadTopHalf c y, loadBottomHalf d y],
    .under .curr (if signed then [.alu2 .SHR e a (.imm 31)] else [])]

def storeLong (dst : ℕ) : List (Item 32 (Reg SatTmp)) :=
  [.under .curr [storeTopHalf dst a, storeBottomHalf dst b]]

/-- `signed` is `dst.is_signed_int()`. -/
def emitI64SATADD (signed : Bool) (dst x y : ℕ) : List (Item 32 (Reg SatTmp)) :=
  loadLongs signed x y ++
  [.under .curr [.addWithCarry b b d, .addWithCarry a a d, .addWithCarry a a c,
    .alu2 .ADD c c d]] ++
  (if !signed then unsignedLimit 0xFFFFFFFF else signedLimits) ++ storeLong dst

def emitI64SATSUB (signed : Bool) (dst x y : ℕ) : List (Item 32 (Reg SatTmp)) :=
  loadLongs signed x y ++
  [.under .curr [.subWithBorrow b b d, .subWithBorrow a a d, .subWithBorrow a a c,
    .alu2 .ADD c c d]] ++
  (if !signed then unsignedLimit 0 else signedLimits) ++ storeLong dst

end

/-! ### The library -/

/-- `(ux.i[1] ^ uy.i[1]) & 0x80000000u` -/
def signsDiffer (x y : BitVec 64) : Bool :=
  (x.extractLsb' 32 32 ^^^ y.extractLsb' 32 32) &&& 0x80000000 != 0

/-- `add_sat` of `long` and `ulong`, around what the instruction gives. -/
def add_sat (signed : Bool) (x y ocl_add_sat : BitVec 64) : BitVec 64 :=
  if signed && signsDiffer x y then x + y else ocl_add_sat

def sub_sat (signed : Bool) (x y ocl_sub_sat : BitVec 64) : BitVec 64 :=
  if signed && !signsDiffer x y then x - y else ocl_sub_sat

/-- An `ADD` of `int` with `GEN_MATH_SATURATE_SATURATE`. -/
def ocl_sadd_sat (x y : BitVec 32) : BitVec 32 := saturate 32 true (x.toInt + y.toInt)

/-- The same with `GenRegister::negate` on the second source. -/
def ocl_ssub_sat (x y : BitVec 32) : BitVec 32 := ocl_sadd_sat x (-y)

/-- `sub_sat` of `int` -/
def sub_sat_int (x y : BitVec 32) : BitVec 32 :=
  if y = 0x80000000 then ocl_sadd_sat (ocl_sadd_sat 0x7fffffff x) 1 else ocl_ssub_sat x y

/-! ### Overflow by halves -/

/-- The carry out of two longs, in two parts. -/
theorem carry_out (v u v' u' : BitVec 32) :
    (BitVec.ofNat 32 (carry (v + BitVec.ofNat 32 (carry u u')) v') +
      BitVec.ofNat 32 (carry v (BitVec.ofNat 32 (carry u u'))) != 0) =
        decide (2 ^ 64 ≤ (v ++ u).toNat + (v' ++ u').toNat) := by
  have hv := v.isLt
  have hu := u.isLt
  have hv' := v'.isLt
  have hu' := u'.isLt
  have hzero : (0 : BitVec 32).toNat = 0 := rfl
  rw [Bool.eq_iff_iff, bne_iff_ne, decide_eq_true_iff, ne_eq, ← BitVec.toNat_inj,
    BitVec.toNat_add, toNat_carry, toNat_carry, BitVec.toNat_add, toNat_carry,
    SplitWord.toNat_append, SplitWord.toNat_append, hzero]
  omega

theorem borrow_out (v u v' u' : BitVec 32) :
    (BitVec.ofNat 32 (borrow (v - BitVec.ofNat 32 (borrow u u')) v') +
      BitVec.ofNat 32 (borrow v (BitVec.ofNat 32 (borrow u u'))) != 0) =
        decide ((v ++ u).toNat < (v' ++ u').toNat) := by
  have hv := v.isLt
  have hu := u.isLt
  have hv' := v'.isLt
  have hu' := u'.isLt
  have hzero : (0 : BitVec 32).toNat = 0 := rfl
  have hsub := toNat_sub v (BitVec.ofNat 32 (borrow u u'))
  rw [toNat_borrow] at hsub
  rw [Bool.eq_iff_iff, bne_iff_ne, decide_eq_true_iff, ne_eq, ← BitVec.toNat_inj,
    BitVec.toNat_add, toNat_borrow, toNat_borrow, toNat_borrow, SplitWord.toNat_append,
    SplitWord.toNat_append, hzero]
  have := (v - BitVec.ofNat 32 (borrow u u')).isLt
  split_ifs at hsub ⊢
  all_goals simp only [not_false_eq_true, true_iff, Nat.add_zero, Nat.zero_mod, not_true_eq_false,
    false_iff]
  all_goals omega

/-! ### One lane -/

variable (active : Bool)

open SatTmp

/-- The result while it is in `a` and `b`. -/
def held (L : Lane 32 (Reg SatTmp)) : BitVec 64 := L.reg a ++ L.reg b

theorem long_storeLong (L : Lane 32 (Reg SatTmp)) (dst : ℕ) :
    long (laneRun active (storeLong dst) L) dst = held L := by
  simp [storeLong, long, held]

theorem held_unsignedLimit (limit : BitVec 32) (L : Lane 32 (Reg SatTmp)) :
    held (laneRun active (unsignedLimit limit) L) =
      if L.reg c != 0 then limit ++ limit else held L := by
  cases h : L.reg c != 0#32 with
  | true => simp [unsignedLimit, held, Cond.eval, h]
  | false => simp [unsignedLimit, held, Cond.eval, h]

theorem held_signedLimits (L : Lane 32 (Reg SatTmp)) :
    held (laneRun active signedLimits L) =
      if L.reg e = 1 ∧ (L.reg a).toNat < 2 ^ 31 then 0x8000000000000000
      else if L.reg e = 0 ∧ 2 ^ 31 ≤ (L.reg a).toNat then 0x7FFFFFFFFFFFFFFF
      else held L := by
  have hpow : (2 : ℕ) ^ 31 = 2147483648 := rfl
  rw [hpow]
  by_cases hlt : (L.reg a).toNat < 2147483648
  · have hle : ¬ 2147483648 ≤ (L.reg a).toNat := hlt.not_ge
    by_cases hone : L.reg e = 1#32
    · simp [signedLimits, held, Cond.eval, BitVec.ult, hone, hlt]
    · simp [signedLimits, held, Cond.eval, BitVec.ult, BitVec.ule, hone, hle, beq_false_of_ne hone]
  · have hle : 2147483648 ≤ (L.reg a).toNat := not_lt.mp hlt
    by_cases hzero : L.reg e = 0#32
    · simp [signedLimits, held, Cond.eval, BitVec.ult, BitVec.ule, hzero, hle]
    · simp [signedLimits, held, Cond.eval, BitVec.ult, BitVec.ule, hlt, hzero,
        beq_false_of_ne hzero]

section

variable (L : Lane 32 (Reg SatTmp)) (signed : Bool) (x y : ℕ)

/-- The sum, before the limits. -/
def sumLane : Lane 32 (Reg SatTmp) :=
  laneRun active (loadLongs signed x y ++ [.under .curr [.addWithCarry b b d,
    .addWithCarry a a d, .addWithCarry a a c, .alu2 .ADD c c d]]) L

def differenceLane : Lane 32 (Reg SatTmp) :=
  laneRun active (loadLongs signed x y ++ [.under .curr [.subWithBorrow b b d,
    .subWithBorrow a a d, .subWithBorrow a a c, .alu2 .ADD c c d]]) L

theorem held_sumLane : held (sumLane active L signed x y) = long L x + long L y := by
  refine Eq.trans ?_ (SplitWord.append_add_append (L.reg (.top x)) (L.reg (.bottom x))
    (L.reg (.top y)) (L.reg (.bottom y))).symm
  cases signed with
  | true => simp [sumLane, loadLongs, held, carry, BitVec.add_assoc, BitVec.add_comm]
  | false => simp [sumLane, loadLongs, held, carry, BitVec.add_assoc, BitVec.add_comm]

theorem held_differenceLane :
    held (differenceLane active L signed x y) = long L x - long L y := by
  refine Eq.trans ?_ (SplitWord.append_sub_append (L.reg (.top x)) (L.reg (.bottom x))
    (L.reg (.top y)) (L.reg (.bottom y))).symm
  rw [sub_right_comm]
  cases signed with
  | true => simp [differenceLane, loadLongs, held, ofNat_borrow]
  | false => simp [differenceLane, loadLongs, held, ofNat_borrow]

/-- What the sum has over 64 bits. -/
theorem over_sumLane : ((sumLane active L false x y).reg c != 0) =
    decide (2 ^ 64 ≤ (long L x).toNat + (long L y).toNat) := by
  refine Eq.trans ?_ (carry_out (L.reg (.top x)) (L.reg (.bottom x)) (L.reg (.top y))
    (L.reg (.bottom y)))
  simp [sumLane, loadLongs]

theorem over_differenceLane : ((differenceLane active L false x y).reg c != 0) =
    decide ((long L x).toNat < (long L y).toNat) := by
  refine Eq.trans ?_ (borrow_out (L.reg (.top x)) (L.reg (.bottom x)) (L.reg (.top y))
    (L.reg (.bottom y)))
  simp [differenceLane, loadLongs]

theorem sign_sumLane : (sumLane active L true x y).reg e = L.reg (.top x) >>> 31 := by
  simp [sumLane, loadLongs]

theorem sign_differenceLane : (differenceLane active L true x y).reg e = L.reg (.top x) >>> 31 := by
  simp [differenceLane, loadLongs]

end

/-! ### Signs -/

/-- The upper dword has the sign of a long. -/
theorem top_lt_iff (v u : BitVec 32) : v.toNat < 2 ^ 31 ↔ 0 ≤ (v ++ u).toInt := by
  have := u.isLt
  have := v.isLt
  rw [BitVec.toInt_eq_toNat_cond, SplitWord.toNat_append]
  split
  · omega
  · omega

theorem shr_eq_one_iff (v u : BitVec 32) : v >>> 31 = 1 ↔ (v ++ u).toInt < 0 := by
  have := v.isLt
  rw [← not_le, ← top_lt_iff, ← BitVec.toNat_inj, BitVec.toNat_ushiftRight,
    Nat.shiftRight_eq_div_pow]
  show _ = 1 ↔ _
  omega

theorem shr_eq_zero_iff (v u : BitVec 32) : v >>> 31 = 0 ↔ ¬ (v ++ u).toInt < 0 := by
  rw [not_lt, ← top_lt_iff, ← BitVec.toNat_inj, BitVec.toNat_ushiftRight,
    Nat.shiftRight_eq_div_pow]
  show _ = 0 ↔ _
  omega

theorem and_signBit (v : BitVec 32) : (v &&& 0x80000000 != 0) = v.msb := by
  have hbit : (0x80000000 : BitVec 32) = BitVec.twoPow 32 31 := rfl
  rw [hbit, BitVec.and_twoPow, BitVec.msb_eq_getLsbD_last]
  split
  · next h =>
    rw [h]
    rfl
  · next h =>
    rw [Bool.eq_false_of_not_eq_true h]
    rfl

theorem signsDiffer_iff (x y : BitVec 64) :
    signsDiffer x y = true ↔ ¬ (x.toInt < 0 ↔ y.toInt < 0) := by
  have hmsb : ∀ x : BitVec 64, (x.extractLsb' 32 32).msb = decide (x.toInt < 0) := by
    intro x
    rw [← BitVec.msb_eq_toInt, BitVec.msb_extractLsb', BitVec.msb_eq_getLsbD_last]
    rfl
  rw [signsDiffer, and_signBit, BitVec.msb_xor, hmsb, hmsb]
  by_cases hx : x.toInt < 0
  · simp [hx]
  · simp [hx]

/-- A result that can only be off on the side of `negative`. -/
theorem limits_eq {negative : Prop} [Decidable negative] {n : ℤ}
    (hneg : negative → -2 ^ 64 ≤ n ∧ n < 0) (hpos : ¬ negative → 0 ≤ n ∧ n < 2 ^ 64) :
    (if negative ∧ 0 ≤ (BitVec.ofInt 64 n).toInt then 0x8000000000000000
      else if ¬ negative ∧ ¬ 0 ≤ (BitVec.ofInt 64 n).toInt then 0x7FFFFFFFFFFFFFFF
      else BitVec.ofInt 64 n) = saturate 64 true n := by
  have hleast : least 64 true = -2 ^ 63 := rfl
  have hgreatest : greatest 64 true = 2 ^ 63 - 1 := rfl
  have hvalue : (BitVec.ofInt 64 n).toInt = n.bmod (2 ^ 64) := BitVec.toInt_ofInt n
  rw [hvalue, Int.bmod_def]
  by_cases h : negative
  · obtain ⟨hlo, hhi⟩ := hneg h
    by_cases hlt : n < -2 ^ 63
    · rw [saturate_of_lt (by omega), if_pos ⟨h, by omega⟩]
      rfl
    · rw [saturate_of_mem (by omega) (by omega), if_neg fun hc => by omega,
        if_neg fun hc => hc.1 h]
  · obtain ⟨hlo, hhi⟩ := hpos h
    by_cases hgt : 2 ^ 63 - 1 < n
    · rw [saturate_of_gt (by omega), if_neg fun hc => h hc.1, if_pos ⟨h, by omega⟩]
      rfl
    · rw [saturate_of_mem (by omega) (by omega), if_neg fun hc => h hc.1,
        if_neg fun hc => by omega]

/-! ### The instructions -/

section

variable (L : Lane 32 (Reg SatTmp)) (dst x y : ℕ)

theorem long_emitI64SATADD_unsigned :
    long (laneRun active (emitI64SATADD false dst x y) L) dst =
      saturate 64 false (value false (long L x) + value false (long L y)) := by
  have hsplit : laneRun active (emitI64SATADD false dst x y) L = laneRun active (storeLong dst)
      (laneRun active (unsignedLimit 0xFFFFFFFF) (sumLane active L false x y)) := by
    rw [emitI64SATADD, laneRun_append, laneRun_append]
    rfl
  have hgreatest : greatest 64 false = 2 ^ 64 - 1 := rfl
  have hleast : least 64 false = 0 := rfl
  have hvalue : ∀ z : BitVec 64, value false z = z.toNat := fun _ => rfl
  rw [hsplit, long_storeLong, held_unsignedLimit, over_sumLane, held_sumLane, hvalue, hvalue]
  split
  · next h =>
    have hover := of_decide_eq_true h
    rw [saturate_of_gt (by omega)]
    rfl
  · next h =>
    have hfit : ¬ _ := fun h' => h (decide_eq_true h')
    rw [saturate_of_mem (by omega) (by omega)]
    exact (ofInt_value_add false _ _).symm

theorem long_emitI64SATSUB_unsigned :
    long (laneRun active (emitI64SATSUB false dst x y) L) dst =
      saturate 64 false (value false (long L x) - value false (long L y)) := by
  have hsplit : laneRun active (emitI64SATSUB false dst x y) L = laneRun active (storeLong dst)
      (laneRun active (unsignedLimit 0) (differenceLane active L false x y)) := by
    rw [emitI64SATSUB, laneRun_append, laneRun_append]
    rfl
  have hgreatest : greatest 64 false = 2 ^ 64 - 1 := rfl
  have hleast : least 64 false = 0 := rfl
  have hvalue : ∀ z : BitVec 64, value false z = z.toNat := fun _ => rfl
  rw [hsplit, long_storeLong, held_unsignedLimit, over_differenceLane, held_differenceLane,
    hvalue, hvalue]
  split
  · next h =>
    have hunder := of_decide_eq_true h
    rw [saturate_of_lt (by omega)]
    rfl
  · next h =>
    have hfit : ¬ _ := fun h' => h (decide_eq_true h')
    rw [saturate_of_mem (by omega) (by omega)]
    exact (ofInt_value_sub false _ _).symm

/-- The signed limits behind a result. -/
theorem held_limits {L' : Lane 32 (Reg SatTmp)} {n : ℤ} (hsign : L'.reg e = L.reg (.top x) >>> 31)
    (hheld : held L' = BitVec.ofInt 64 n)
    (hneg : (long L x).toInt < 0 → -2 ^ 64 ≤ n ∧ n < 0)
    (hpos : ¬ (long L x).toInt < 0 → 0 ≤ n ∧ n < 2 ^ 64) :
    held (laneRun active signedLimits L') = saturate 64 true n := by
  have htop : (L'.reg a).toNat < 2 ^ 31 ↔ 0 ≤ (BitVec.ofInt 64 n).toInt :=
    hheld ▸ top_lt_iff (L'.reg a) (L'.reg b)
  have htop' : 2 ^ 31 ≤ (L'.reg a).toNat ↔ ¬ 0 ≤ (BitVec.ofInt 64 n).toInt := by
    rw [← htop, not_lt]
  have hone : L'.reg e = 1 ↔ (long L x).toInt < 0 := hsign ▸ shr_eq_one_iff _ _
  have hzero : L'.reg e = 0 ↔ ¬ (long L x).toInt < 0 := hsign ▸ shr_eq_zero_iff _ _
  rw [← limits_eq hneg hpos, held_signedLimits]
  simp only [hone, hzero, htop, htop', hheld]

theorem value_true (z : BitVec 64) : value true z = z.toInt := rfl

theorem toInt_range (z : BitVec 64) : -2 ^ 63 ≤ z.toInt ∧ z.toInt < 2 ^ 63 :=
  ⟨z.le_toInt, z.toInt_lt⟩

theorem long_emitI64SATADD_signed
    (hsame : (long L x).toInt < 0 ↔ (long L y).toInt < 0) :
    long (laneRun active (emitI64SATADD true dst x y) L) dst =
      saturate 64 true (value true (long L x) + value true (long L y)) := by
  have hsplit : laneRun active (emitI64SATADD true dst x y) L = laneRun active (storeLong dst)
      (laneRun active signedLimits (sumLane active L true x y)) := by
    rw [emitI64SATADD, laneRun_append, laneRun_append]
    rfl
  have hx := toInt_range (long L x)
  have hy := toInt_range (long L y)
  rw [hsplit, long_storeLong]
  refine held_limits active L x (sign_sumLane active L x y) ?_ ?_ ?_
  · rw [held_sumLane, ofInt_value_add]
  all_goals
    rw [value_true, value_true]
    omega

theorem long_emitI64SATSUB_signed
    (hdiffer : ¬ ((long L x).toInt < 0 ↔ (long L y).toInt < 0)) :
    long (laneRun active (emitI64SATSUB true dst x y) L) dst =
      saturate 64 true (value true (long L x) - value true (long L y)) := by
  have hsplit : laneRun active (emitI64SATSUB true dst x y) L = laneRun active (storeLong dst)
      (laneRun active signedLimits (differenceLane active L true x y)) := by
    rw [emitI64SATSUB, laneRun_append, laneRun_append]
    rfl
  have hx := toInt_range (long L x)
  have hy := toInt_range (long L y)
  rw [hsplit, long_storeLong]
  refine held_limits active L x (sign_differenceLane active L x y) ?_ ?_ ?_
  · rw [held_differenceLane, ofInt_value_sub]
  all_goals
    rw [value_true, value_true]
    omega

end

/-! ### The library functions -/

/-- A result in range needs no limit. -/
theorem add_eq_saturate (x y : BitVec 64) (hdiffer : ¬ (x.toInt < 0 ↔ y.toInt < 0)) :
    x + y = saturate 64 true (value true x + value true y) := by
  have hleast : least 64 true = -2 ^ 63 := rfl
  have hgreatest : greatest 64 true = 2 ^ 63 - 1 := rfl
  have hx := toInt_range x
  have hy := toInt_range y
  rw [saturate_of_mem, ofInt_value_add]
  all_goals
    rw [value_true, value_true]
    omega

theorem sub_eq_saturate (x y : BitVec 64) (hsame : x.toInt < 0 ↔ y.toInt < 0) :
    x - y = saturate 64 true (value true x - value true y) := by
  have hleast : least 64 true = -2 ^ 63 := rfl
  have hgreatest : greatest 64 true = 2 ^ 63 - 1 := rfl
  have hx := toInt_range x
  have hy := toInt_range y
  rw [saturate_of_mem, ofInt_value_sub]
  all_goals
    rw [value_true, value_true]
    omega

/-- `-2 ^ 31` has no negation, and is subtracted by two additions. -/
theorem sub_sat_int_eq (x y : BitVec 32) :
    sub_sat_int x y = saturate 32 true (x.toInt - y.toInt) := by
  have hx := x.toInt_lt
  have hx' := x.le_toInt
  have hy := y.toInt_lt
  have hy' := y.le_toInt
  have hleast : least 32 true = -2 ^ 31 := rfl
  have hgreatest : greatest 32 true = 2 ^ 31 - 1 := rfl
  have hmax : (0x7fffffff : BitVec 32).toInt = 2 ^ 31 - 1 := rfl
  have hmin : (0x80000000 : BitVec 32).toInt = -2 ^ 31 := rfl
  have hone : (1 : BitVec 32).toInt = 1 := rfl
  rw [sub_sat_int]
  split
  · next h =>
    rw [h, hmin, ocl_sadd_sat, ocl_sadd_sat, hmax, hone]
    by_cases hneg : x.toInt < 0
    · have hinner : (saturate 32 true (2 ^ 31 - 1 + x.toInt)).toInt = 2 ^ 31 - 1 + x.toInt := by
        rw [saturate_of_mem (by omega) (by omega), BitVec.toInt_ofInt, Int.bmod_def]
        omega
      rw [hinner]
      congr 1
      omega
    · have hinner : (saturate 32 true (2 ^ 31 - 1 + x.toInt)).toInt = 2 ^ 31 - 1 := by
        by_cases hzero : x.toInt = 0
        · rw [hzero]
          rfl
        · rw [saturate_of_gt (by omega)]
          rfl
      rw [hinner, saturate_of_gt (by omega), saturate_of_gt (by omega)]
  · next h =>
    have hy0 : y.toInt ≠ -2 ^ 31 := fun hc => h (BitVec.eq_of_toInt_eq (hc.trans hmin.symm))
    have hneg : (-y).toInt = -y.toInt := by
      rw [BitVec.toInt_neg, Int.bmod_def]
      omega
    rw [ocl_ssub_sat, ocl_sadd_sat, hneg, ← sub_eq_add_neg]

variable {mask : ℕ → Bool} {curr : Control} {l : ℕ}

/-- Saturating addition and subtraction give the exact result, moved into the range. -/
theorem saturating_exact (hw : Whole curr) (hl : l < curr.execWidth)
    (hp : curr.predicated = false) (hon : (curr.noMask || mask l) = true) (signed : Bool)
    (dst x y : ℕ) (s : State 32 (Reg SatTmp)) :
    let X := long (s.lane l) x
    let Y := long (s.lane l) y
    add_sat signed X Y (long ((run mask (emit curr (emitI64SATADD signed dst x y)) s).lane l)
      dst) = saturate 64 signed (value signed X + value signed Y) ∧
    sub_sat signed X Y (long ((run mask (emit curr (emitI64SATSUB signed dst x y)) s).lane l)
      dst) = saturate 64 signed (value signed X - value signed Y) ∧
    ∀ u v : BitVec 32, sub_sat_int u v = saturate 32 true (u.toInt - v.toInt) := by
  intro X Y
  rw [lane_run hw.fits hl hp hon, lane_run hw.fits hl hp hon]
  refine ⟨?_, ?_, sub_sat_int_eq⟩
  · cases signed with
    | false => exact long_emitI64SATADD_unsigned _ _ dst x y
    | true =>
      by_cases hdiffer : signsDiffer X Y = true
      · rw [add_sat, hdiffer]
        exact add_eq_saturate X Y ((signsDiffer_iff X Y).mp hdiffer)
      · rw [add_sat, Bool.eq_false_of_not_eq_true hdiffer]
        refine long_emitI64SATADD_signed _ _ dst x y ?_
        by_contra h
        exact hdiffer ((signsDiffer_iff X Y).mpr h)
  · cases signed with
    | false => exact long_emitI64SATSUB_unsigned _ _ dst x y
    | true =>
      by_cases hdiffer : signsDiffer X Y = true
      · rw [sub_sat, hdiffer]
        exact long_emitI64SATSUB_signed _ _ dst x y ((signsDiffer_iff X Y).mp hdiffer)
      · rw [sub_sat, Bool.eq_false_of_not_eq_true hdiffer]
        refine sub_eq_saturate X Y ?_
        by_contra h
        exact hdiffer ((signsDiffer_iff X Y).mpr h)

theorem saturating_exact_sixteen :
    let s : State 32 (Reg SatTmp) := filled 5
    let X := long (s.lane 9) 1
    let Y := long (s.lane 9) 2
    add_sat true X Y (long ((run (fun l => l == 9) (emit ⟨16, 0, 0, false, false⟩
      (emitI64SATADD true 0 1 2)) s).lane 9) 0) =
        saturate 64 true (value true X + value true Y) ∧
    sub_sat true X Y (long ((run (fun l => l == 9) (emit ⟨16, 0, 0, false, false⟩
      (emitI64SATSUB true 0 1 2)) s).lane 9) 0) =
        saturate 64 true (value true X - value true Y) ∧
    ∀ u v : BitVec 32, sub_sat_int u v = saturate 32 true (u.toInt - v.toInt) :=
  saturating_exact ⟨.inr rfl, rfl, rfl⟩ (by decide) rfl rfl true 0 1 2 (filled 5)

end LongCode

end Backend
