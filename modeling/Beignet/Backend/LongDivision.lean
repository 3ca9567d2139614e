/-
Division of longs (`emitI64DIVREMInstruction`).

The loop is a restoring division: the divisor is kept in four dwords, the remainder, the quotient
and the bit of the round in two each.  The lanes jump back together, as long as an active lane
has rounds to go, and they all start with 64 of them.

* `numbers_roundCode` — a round in one lane is a round of `RestoringDivision`;
* `divrem_exact` — the loop ends, with the quotient or the remainder in every active lane.
-/
import Beignet.Backend.LongCode
import Beignet.Lib.Iterate
import Beignet.Lib.RestoringDivision
import Beignet.Lib.Saturate

namespace Backend

namespace LongCode

open Simd Saturate

/-! ### The code -/

inductive DivTmp where
  | a | b | c | d | e | f | g | h | i | j | k | l | m
  deriving DecidableEq

/-- `SEL_OP_I64DIV` or `SEL_OP_I64REM` -/
inductive DivOp where
  | I64DIV | I64REM

section

open DivTmp

def loadOperands (x y : ℕ) : List (Item 32 (Reg DivTmp)) :=
  [.under .curr [loadTopHalf a x, loadBottomHalf b x, loadTopHalf c y, loadBottomHalf d y]]

/-- The operands become their absolute values, and `k` the sign of the result. -/
def takeSigns (op : DivOp) : List (Item 32 (Reg DivTmp)) :=
  I64ABS k a b e ++ I64ABS l c d e ++
  match op with
  | .I64DIV => [Item.under .curr [.alu2 .XOR k k l]]
  | .I64REM => []

def startLoop : List (Item 32 (Reg DivTmp)) :=
  [.under .curr [.alu1 .MOV e (.imm 0), .alu1 .MOV f (.imm 0), .alu1 .MOV g (.imm 0x80000000),
    .alu1 .MOV h (.imm 0), .alu1 .MOV i (.imm 0), .alu1 .MOV j (.imm 0), .alu1 .MOV m (.imm 0)]]

/-- `(c,d,e,f) <- (c,d,e,f) / 2` -/
def halveDivisor : List (Item 32 (Reg DivTmp)) :=
  [.under .curr [.alu2 .SHR f f (.imm 1), .alu2 .SHL l e (.imm 31), .alu2 .OR f f l,
    .alu2 .SHR e e (.imm 1), .alu2 .SHL l d (.imm 31), .alu2 .OR e e l,
    .alu2 .SHR d d (.imm 1), .alu2 .SHL l c (.imm 31), .alu2 .OR d d l,
    .alu2 .SHR c c (.imm 1)]]

/-- `condition <- (c,d)==0 && (a,b)>=(e,f)` -/
def testDivisor : List (Item 32 (Reg DivTmp)) :=
  [.under .all [.alu1 .MOV l (.imm 0), .CMP .Z false a e],
    .under .flagged [.CMP .GE false b f, .alu1 .MOV l (.imm 1)],
    .under .all [.CMP .G false a e],
    .under .flagged [.alu1 .MOV l (.imm 1)],
    .under .all [.CMP .NZ false l (.imm 0)],
    .under .flagged [.CMP .Z false c (.imm 0), .CMP .Z false d (.imm 0)]]

/-- Under condition, the divisor is subtracted and the bit is set. -/
def subtractDivisor : List (Item 32 (Reg DivTmp)) :=
  [.under .flagged [.alu1 .MOV l f, .subWithBorrow b b l, .subWithBorrow a a l, .alu1 .MOV l e,
    .subWithBorrow a a l, .alu2 .OR i i g, .alu2 .OR j j h]]

/-- `(g,h) /= 2`, and one more round is done. -/
def halveBit : List (Item 32 (Reg DivTmp)) :=
  [.under .curr [.alu2 .SHR h h (.imm 1), .alu2 .SHL l g (.imm 31), .alu2 .OR h h l,
    .alu2 .SHR g g (.imm 1), .alu2 .ADD m m (.imm 1)]]

/-- The condition of the jump back to the start of the loop, in the active lanes. -/
def testCount : List (Item 32 (Reg DivTmp)) :=
  [.under .all [.setFlag false], .under .masked [.CMP .L false m (.imm 64)]]

def roundCode : List (Item 32 (Reg DivTmp)) :=
  halveDivisor ++ testDivisor ++ subtractDivisor ++ halveBit

def adjustSign (op : DivOp) : List (Item 32 (Reg DivTmp)) :=
  [.under .all [.CMP .NZ false k (.imm 0)],
    .under .flagged (match op with
      | .I64DIV => I64Neg i j l
      | .I64REM => I64Neg a b l)]

def storeResult (op : DivOp) (dest : ℕ) : List (Item 32 (Reg DivTmp)) :=
  match op with
  | .I64DIV => [.under .curr [storeTopHalf dest i, storeBottomHalf dest j]]
  | .I64REM => [.under .curr [storeTopHalf dest a, storeBottomHalf dest b]]

def beforeLoop (op : DivOp) (signed : Bool) (x y : ℕ) : List (Item 32 (Reg DivTmp)) :=
  loadOperands x y ++ (if signed then takeSigns op else []) ++ startLoop

def behindLoop (op : DivOp) (signed : Bool) (dest : ℕ) : List (Item 32 (Reg DivTmp)) :=
  (if signed then adjustSign op else []) ++ storeResult op dest

/-- `GEN_PREDICATE_ALIGN1_ANY8H` or `GEN_PREDICATE_ALIGN1_ANY16H` -/
def anyFlag (simdWidth : ℕ) (s : State 32 (Reg DivTmp)) : Bool :=
  (List.range simdWidth).any s.flag

/-- The loop body, and whether its `JMPI` goes back. -/
def loopRound (mask : ℕ → Bool) (curr : Control) (s : State 32 (Reg DivTmp)) :
    State 32 (Reg DivTmp) × Bool :=
  (run mask (emit curr (roundCode ++ testCount)) s,
    anyFlag curr.execWidth (run mask (emit curr (roundCode ++ testCount)) s))

/-- The whole sequence; `none` when the fuel for the loop runs out. -/
def runI64DIVREM (mask : ℕ → Bool) (curr : Control) (op : DivOp) (signed : Bool) (dest x y : ℕ)
    (fuel : ℕ) (s : State 32 (Reg DivTmp)) : Option (State 32 (Reg DivTmp)) :=
  (Iterate.untilStable (loopRound mask curr) fuel
    (run mask (emit curr (beforeLoop op signed x y)) s)).map
      (run mask (emit curr (behindLoop op signed dest)))

end

/-! ### A round in one lane -/

section

open DivTmp RestoringDivision

theorem toNat_pair (L : Lane 32 (Reg DivTmp)) (high low : DivTmp) :
    (pair L high low).toNat = (L.reg high).toNat * 2 ^ 32 + (L.reg low).toNat :=
  SplitWord.toNat_append _ _

/-- The numbers of the division that a lane holds. -/
def numbers (L : Lane 32 (Reg DivTmp)) : Numbers :=
  ⟨(pair L a b).toNat, (pair L c d).toNat * 2 ^ 64 + (pair L e f).toNat, (pair L i j).toNat,
    (pair L g h).toNat⟩

variable (active : Bool) (L : Lane 32 (Reg DivTmp))

theorem toNat_shr_one (v : BitVec 32) : (v >>> 1).toNat = v.toNat / 2 := by
  rw [BitVec.toNat_ushiftRight, Nat.shiftRight_eq_div_pow, Nat.pow_one]

theorem numbers_halveDivisor :
    numbers (laneRun active halveDivisor L) = { numbers L with div := (numbers L).div / 2 } := by
  have hdiv : (numbers (laneRun active halveDivisor L)).div = (numbers L).div / 2 := by
    simp [-BitVec.toNat_or, -BitVec.toNat_ushiftRight, halveDivisor, toNat_pair, toNat_halve,
      toNat_shr_one, numbers]
    omega
  rw [← hdiv]
  simp [numbers, halveDivisor, pair]

/-- The comparison of two dwords with two others, dword by dword. -/
theorem flag_compare :
    (laneRun active testDivisor L).flag =
      ((L.reg c == 0 && L.reg d == 0) && (pair L e f).ule (pair L a b)) := by
  have hle : (pair L e f).ule (pair L a b) =
      ((L.reg e).ult (L.reg a) || L.reg a == L.reg e && (L.reg f).ule (L.reg b)) := by
    rw [BEq.comm (a := L.reg a)]
    exact SplitWord.ule_append _ _ _ _
  rw [hle]
  simp [testDivisor, Cond.eval]
  cases (L.reg e).ult (L.reg a) with
  | true => simp
  | false =>
    cases L.reg a == L.reg e && (L.reg f).ule (L.reg b) with
    | true => simp
    | false => simp

theorem flag_testDivisor :
    (laneRun active testDivisor L).flag = decide ((numbers L).div ≤ (numbers L).rem) := by
  have hzero : ∀ v : BitVec 32, v = 0 ↔ v.toNat = 0 := by
    intro v
    rw [← BitVec.toNat_inj]
    rfl
  have hlow := (pair L e f).isLt
  have hrem := (pair L a b).isLt
  rw [flag_compare, Bool.eq_iff_iff]
  simp only [Bool.and_eq_true, beq_iff_eq, BitVec.ule, decide_eq_true_iff, hzero, numbers,
    toNat_pair L c d]
  omega

theorem numbers_testDivisor : numbers (laneRun active testDivisor L) = numbers L := by
  simp [numbers, testDivisor, pair]

theorem numbers_subtractDivisor :
    numbers (laneRun active subtractDivisor L) =
      if L.flag then { numbers L with
        rem := (pair L a b - pair L e f).toNat
        quot := (numbers L).quot ||| (numbers L).bit }
      else numbers L := by
  cases hflag : L.flag with
  | false => simp [numbers, subtractDivisor, pair, hflag]
  | true =>
    have hrem : pair (laneRun active subtractDivisor L) a b = pair L a b - pair L e f := by
      refine Eq.trans ?_ (SplitWord.append_sub_append (L.reg a) (L.reg b) (L.reg e)
        (L.reg f)).symm
      rw [sub_right_comm]
      simp [subtractDivisor, pair, ofNat_borrow, hflag]
    have hquot : pair (laneRun active subtractDivisor L) i j = pair L i j ||| pair L g h := by
      show _ = (L.reg i ++ L.reg j ||| L.reg g ++ L.reg h : BitVec (32 + 32))
      rw [BitVec.or_append]
      simp [subtractDivisor, pair, hflag]
    rw [if_pos rfl]
    simp only [numbers]
    rw [hrem, hquot, BitVec.toNat_or]
    simp [subtractDivisor, pair, hflag]

theorem numbers_halveBit :
    numbers (laneRun active halveBit L) = { numbers L with bit := (numbers L).bit / 2 } := by
  have hbit : (numbers (laneRun active halveBit L)).bit = (numbers L).bit / 2 := by
    simp [-BitVec.toNat_or, -BitVec.toNat_ushiftRight, halveBit, toNat_pair, toNat_halve,
      toNat_shr_one, numbers]
    omega
  rw [← hbit]
  simp [numbers, halveBit, pair]

/-- A divisor that fits has no upper half. -/
theorem toNat_sub_divisor (h : (numbers L).div ≤ (numbers L).rem) :
    (pair L a b - pair L e f).toNat = (numbers L).rem - (numbers L).div := by
  simp only [numbers] at h ⊢
  rw [BitVec.toNat_sub_of_le (BitVec.le_def.mpr (by omega))]
  omega

/-- A round of the code is a round of the division. -/
theorem numbers_roundCode : numbers (laneRun active roundCode L) = (numbers L).round := by
  simp only [roundCode, laneRun_append]
  rw [numbers_halveBit, numbers_subtractDivisor, flag_testDivisor, numbers_testDivisor,
    numbers_halveDivisor, Numbers.round]
  by_cases h : (numbers L).div / 2 ≤ (numbers L).rem
  · have hsub := toNat_sub_divisor (laneRun active testDivisor (laneRun active halveDivisor L))
      (by rw [numbers_testDivisor, numbers_halveDivisor]; exact h)
    rw [numbers_testDivisor, numbers_halveDivisor] at hsub
    rw [hsub]
    simp [h]
  · simp [h]

/-- The count and the sign in a round. -/
theorem reg_roundCode :
    (laneRun active roundCode L).reg m = L.reg m + 1 ∧
      (laneRun active roundCode L).reg k = L.reg k := by
  simp [roundCode, halveDivisor, testDivisor, subtractDivisor, halveBit]

theorem laneRun_testCount :
    laneRun active testCount L = ⟨L.reg, active && decide ((L.reg m).toNat < 64)⟩ := by
  cases active with
  | true => simp [testCount, Cond.eval, BitVec.ult]
  | false => simp [testCount, Cond.eval, BitVec.ult]

/-! ### Before the loop -/

/-- The sign of the result. -/
def DivOp.negative (op : DivOp) (X Y : BitVec 64) : Bool :=
  match op with
  | I64DIV => X.msb != Y.msb
  | I64REM => X.msb

/-- The two operands in absolute value. -/
def absLane : Lane 32 (Reg DivTmp) :=
  laneRun active (I64ABS l c d e) (laneRun active (I64ABS k a b e) L)

theorem pair_absLane :
    pair (absLane active L) a b = (pair L a b).abs ∧
      pair (absLane active L) c d = (pair L c d).abs := by
  constructor
  · have habs : pair (laneRun active (I64ABS k a b e) L) a b = (pair L a b).abs :=
      pair_I64ABS _ _ (by decide) (by decide) (by decide) (by decide) (by decide)
    rw [← habs]
    unfold pair absLane
    rw [reg_I64ABS (r := .tmp a) _ _ (by decide) (by decide) (by decide) (by decide),
      reg_I64ABS (r := .tmp b) _ _ (by decide) (by decide) (by decide) (by decide)]
  · rw [absLane, pair_I64ABS _ _ (by decide) (by decide) (by decide) (by decide) (by decide)]
    unfold pair
    rw [reg_I64ABS (r := .tmp c) _ _ (by decide) (by decide) (by decide) (by decide),
      reg_I64ABS (r := .tmp d) _ _ (by decide) (by decide) (by decide) (by decide)]

theorem signs_absLane :
    (absLane active L).reg k = L.reg a >>> 31 ∧ (absLane active L).reg l = L.reg c >>> 31 := by
  constructor
  · rw [absLane, reg_I64ABS _ _ (by decide) (by decide) (by decide) (by decide),
      sign_I64ABS _ _ (by decide) (by decide) (by decide)]
  · rw [absLane, sign_I64ABS _ _ (by decide) (by decide) (by decide),
      reg_I64ABS _ _ (by decide) (by decide) (by decide) (by decide)]

theorem laneRun_takeSigns_div :
    laneRun active (takeSigns .I64DIV) L =
      write true (.tmp k) ((absLane active L).reg k ^^^ (absLane active L).reg l)
        (absLane active L) := by
  rw [takeSigns, laneRun_append, laneRun_append, ← absLane]
  rfl

theorem laneRun_takeSigns_rem : laneRun active (takeSigns .I64REM) L = absLane active L := by
  rw [takeSigns, laneRun_append, laneRun_append, ← absLane]
  exact laneRun_nil active _

theorem pair_takeSigns (op : DivOp) :
    pair (laneRun active (takeSigns op) L) a b = (pair L a b).abs ∧
      pair (laneRun active (takeSigns op) L) c d = (pair L c d).abs := by
  rw [← (pair_absLane active L).1, ← (pair_absLane active L).2]
  cases op with
  | I64DIV =>
    rw [laneRun_takeSigns_div]
    simp [pair]
  | I64REM =>
    rw [laneRun_takeSigns_rem]
    exact ⟨rfl, rfl⟩

/-- The sign bit as a dword. -/
theorem shr_eq (v u : BitVec 32) : v >>> 31 = if (v ++ u).msb then 1 else 0 := by
  have hv := v.isLt
  rw [SplitWord.msb_append _ _ (by decide), BitVec.msb_eq_decide, ← BitVec.toNat_inj,
    BitVec.toNat_ushiftRight, Nat.shiftRight_eq_div_pow]
  by_cases h : 2 ^ 31 ≤ v.toNat
  · rw [if_pos (by simpa using h)]
    show _ = 1
    omega
  · rw [if_neg (by simpa using h)]
    show _ = 0
    omega

theorem sign_takeSigns (op : DivOp) :
    ((laneRun active (takeSigns op) L).reg k != 0) = op.negative (pair L a b) (pair L c d) := by
  obtain ⟨hk, hl⟩ := signs_absLane active L
  cases op with
  | I64DIV =>
    have hxor : (laneRun active (takeSigns .I64DIV) L).reg k =
        (L.reg a >>> 31) ^^^ (L.reg c >>> 31) := by
      rw [laneRun_takeSigns_div, ← hk, ← hl]
      simp
    rw [hxor, shr_eq _ (L.reg b), shr_eq _ (L.reg d)]
    show _ = ((pair L a b).msb != (pair L c d).msb)
    unfold pair
    cases (L.reg a ++ L.reg b).msb with
    | true =>
      cases (L.reg c ++ L.reg d).msb with
      | true => rfl
      | false => rfl
    | false =>
      cases (L.reg c ++ L.reg d).msb with
      | true => rfl
      | false => rfl
  | I64REM =>
    rw [laneRun_takeSigns_rem, hk]
    exact shr_ne_zero _ _

/-- What the loop starts with. -/
theorem numbers_startLoop :
    numbers (laneRun active startLoop L) =
      ⟨(pair L a b).toNat, (pair L c d).toNat * 2 ^ 64, 0, 2 ^ 64 / 2⟩ := by
  simp [numbers, startLoop, pair]

theorem reg_startLoop :
    (laneRun active startLoop L).reg m = 0 ∧ (laneRun active startLoop L).reg k = L.reg k := by
  simp [startLoop]

theorem numbers_beforeLoop (op : DivOp) (signed : Bool) (x y : ℕ) :
    numbers (laneRun active (beforeLoop op signed x y) L) =
      ⟨(value signed (long L x)).natAbs, (value signed (long L y)).natAbs * 2 ^ 64, 0,
        2 ^ 64 / 2⟩ := by
  have hload : pair (laneRun active (loadOperands x y) L) a b = long L x ∧
      pair (laneRun active (loadOperands x y) L) c d = long L y := by
    simp [loadOperands, pair, long]
  rw [beforeLoop, laneRun_append, laneRun_append, numbers_startLoop]
  cases signed with
  | true =>
    rw [if_pos rfl, (pair_takeSigns _ _ op).1, (pair_takeSigns _ _ op).2, hload.1, hload.2,
      toNat_abs, toNat_abs]
    rfl
  | false =>
    rw [if_neg Bool.false_ne_true, laneRun_nil, hload.1, hload.2]
    rfl

theorem reg_beforeLoop (op : DivOp) (signed : Bool) (x y : ℕ) :
    (laneRun active (beforeLoop op signed x y) L).reg m = 0 ∧
      (signed = true → ((laneRun active (beforeLoop op signed x y) L).reg k != 0) =
        op.negative (long L x) (long L y)) := by
  have hload : pair (laneRun active (loadOperands x y) L) a b = long L x ∧
      pair (laneRun active (loadOperands x y) L) c d = long L y := by
    simp [loadOperands, pair, long]
  rw [beforeLoop, laneRun_append, laneRun_append, (reg_startLoop _ _).1, (reg_startLoop _ _).2]
  refine ⟨rfl, ?_⟩
  rintro rfl
  rw [if_pos rfl, sign_takeSigns, hload.1, hload.2]

/-! ### Behind the loop -/

/-- The unsigned result. -/
def DivOp.magnitude (op : DivOp) (L : Lane 32 (Reg DivTmp)) : BitVec 64 :=
  match op with
  | I64DIV => pair L i j
  | I64REM => pair L a b

theorem long_storeResult (op : DivOp) (dest : ℕ) :
    long (laneRun active (storeResult op dest) L) dest = op.magnitude L := by
  cases op with
  | I64DIV => simp [storeResult, long, DivOp.magnitude, pair]
  | I64REM => simp [storeResult, long, DivOp.magnitude, pair]

theorem magnitude_adjustSign (op : DivOp) :
    op.magnitude (laneRun active (adjustSign op) L) =
      if L.reg k != 0 then -op.magnitude L else op.magnitude L := by
  cases op with
  | I64DIV =>
    show pair (laneRun active [_, .under .flagged (I64Neg i j l)] L) (.tmp i) (.tmp j) = _
    rw [laneRun_cons, laneRun_cons, laneRun_nil, laneItem,
      pair_I64Neg _ _ (by decide) (by decide) (by decide)]
    simp [Cond.eval, DivOp.magnitude, pair, cond_eq_ite]
  | I64REM =>
    show pair (laneRun active [_, .under .flagged (I64Neg a b l)] L) (.tmp a) (.tmp b) = _
    rw [laneRun_cons, laneRun_cons, laneRun_nil, laneItem,
      pair_I64Neg _ _ (by decide) (by decide) (by decide)]
    simp [Cond.eval, DivOp.magnitude, pair, cond_eq_ite]

theorem long_behindLoop (op : DivOp) (signed : Bool) (dest : ℕ) :
    long (laneRun active (behindLoop op signed dest) L) dest =
      if signed && L.reg k != 0 then -op.magnitude L else op.magnitude L := by
  rw [behindLoop, laneRun_append, long_storeResult]
  cases signed with
  | true => rw [if_pos rfl, magnitude_adjustSign, Bool.true_and]
  | false => rfl

/-! ### The result -/

/-- On absolute values. -/
def DivOp.eval (op : DivOp) (m n : ℕ) : ℕ :=
  match op with
  | I64DIV => m / n
  | I64REM => m % n

/-- What the two instructions are for. -/
def DivOp.exact (op : DivOp) (signed : Bool) (X Y : BitVec 64) : BitVec 64 :=
  match op with
  | I64DIV => BitVec.ofInt 64 ((value signed X).tdiv (value signed Y))
  | I64REM => BitVec.ofInt 64 ((value signed X).tmod (value signed Y))

/-- A number and its absolute value. -/
theorem eq_natAbs (n : ℤ) : n = if n < 0 then -(n.natAbs : ℤ) else n.natAbs := by
  split
  · omega
  · omega

theorem tdiv_eq (n m : ℤ) : n.tdiv m =
    if (decide (n < 0) != decide (m < 0)) = true then -((n.natAbs / m.natAbs : ℕ) : ℤ)
    else (n.natAbs / m.natAbs : ℕ) := by
  have hn := eq_natAbs n
  have hm := eq_natAbs m
  by_cases hn0 : n < 0
  · rw [if_pos hn0] at hn
    by_cases hm0 : m < 0
    · rw [if_pos hm0] at hm
      rw [if_neg (by simp [hn0, hm0])]
      conv_lhs => rw [hn, hm, Int.neg_tdiv, Int.tdiv_neg, neg_neg, ← Int.ofNat_tdiv]
    · rw [if_neg hm0] at hm
      rw [if_pos (by simp [hn0, hm0])]
      conv_lhs => rw [hn, hm, Int.neg_tdiv, ← Int.ofNat_tdiv]
  · rw [if_neg hn0] at hn
    by_cases hm0 : m < 0
    · rw [if_pos hm0] at hm
      rw [if_pos (by simp [hn0, hm0])]
      conv_lhs => rw [hn, hm, Int.tdiv_neg, ← Int.ofNat_tdiv]
    · rw [if_neg hm0] at hm
      rw [if_neg (by simp [hn0, hm0])]
      conv_lhs => rw [hn, hm, ← Int.ofNat_tdiv]

theorem tmod_eq (n m : ℤ) : n.tmod m =
    if n < 0 then -((n.natAbs % m.natAbs : ℕ) : ℤ) else (n.natAbs % m.natAbs : ℕ) := by
  have hn := eq_natAbs n
  have hmod : n.tmod m = n.tmod m.natAbs := by
    obtain h | h := Int.natAbs_eq m
    · rw [← h]
    · conv_lhs => rw [h, Int.tmod_neg]
  rw [hmod]
  split
  · next h =>
    rw [if_pos h] at hn
    conv_lhs => rw [hn, Int.neg_tmod, ← Int.ofNat_tmod]
  · next h =>
    rw [if_neg h] at hn
    conv_lhs => rw [hn, ← Int.ofNat_tmod]

/-- The magnitude, with its sign, is the exact result. -/
theorem exact_eq (op : DivOp) (signed : Bool) (X Y v : BitVec 64)
    (hv : v.toNat = op.eval (value signed X).natAbs (value signed Y).natAbs) :
    (if signed && op.negative X Y then -v else v) = op.exact signed X Y := by
  have hself : v = BitVec.ofInt 64 (v.toNat : ℤ) := by
    rw [BitVec.ofInt_natCast, BitVec.ofNat_toNat, BitVec.setWidth_eq]
  have hneg : -v = BitVec.ofInt 64 (-(v.toNat : ℤ)) := by
    rw [BitVec.ofInt_neg, ← hself]
  have hsign : ∀ Z : BitVec 64, (signed && Z.msb) = decide (value signed Z < 0) := by
    intro Z
    cases signed with
    | true => rw [Bool.true_and, BitVec.msb_eq_toInt]; rfl
    | false =>
      show false = decide ((Z.toNat : ℤ) < 0)
      simp
  cases op with
  | I64DIV =>
    have hnegative : (signed && DivOp.negative .I64DIV X Y) =
        (decide (value signed X < 0) != decide (value signed Y < 0)) := by
      rw [← hsign, ← hsign]
      cases signed with
      | true => rfl
      | false => rfl
    rw [DivOp.eval] at hv
    rw [hnegative, hneg, DivOp.exact, tdiv_eq, ← hv]
    split
    · rfl
    · exact hself
  | I64REM =>
    have hnegative : (signed && DivOp.negative .I64REM X Y) = decide (value signed X < 0) :=
      hsign X
    rw [DivOp.eval] at hv
    rw [hnegative, hneg, DivOp.exact, tmod_eq, ← hv]
    simp only [decide_eq_true_eq]
    split
    · rfl
    · exact hself

/-! ### The loop -/

/-- A lane behind `n` rounds of the division of `X` by `Y`.  A lane that divides by 0 counts its
rounds all the same. -/
structure After (X Y : ℕ) (sign : BitVec 32) (n : ℕ) (L : Lane 32 (Reg DivTmp)) : Prop where
  inv : 0 < Y → Inv X Y (64 - n) (numbers L)
  count : (L.reg m).toNat = n
  sign : L.reg k = sign

variable {X Y n : ℕ} {sign : BitVec 32}

theorem After.round {L : Lane 32 (Reg DivTmp)} (h : After X Y sign n L) (hn : n < 64) :
    After X Y sign (n + 1) (laneRun active (roundCode ++ testCount) L) := by
  have hreg : (laneRun active (roundCode ++ testCount) L).reg =
      (laneRun active roundCode L).reg := by
    rw [laneRun_append, laneRun_testCount]
  have hnumbers : numbers (laneRun active (roundCode ++ testCount) L) = (numbers L).round := by
    rw [← numbers_roundCode active L]
    simp only [numbers, pair, hreg]
  refine ⟨?_, ?_, ?_⟩
  · intro hY
    have hinv := h.inv hY
    rw [show 64 - n = 64 - (n + 1) + 1 by omega] at hinv
    rw [hnumbers]
    exact hinv.round
  · have hone : (1 : BitVec 32).toNat = 1 := rfl
    rw [hreg, (reg_roundCode active L).1, BitVec.toNat_add, h.count, hone,
      Nat.mod_eq_of_lt (by omega)]
  · rw [hreg, (reg_roundCode active L).2, h.sign]

theorem natAbs_value_pos (signed : Bool) {Z : BitVec 64} (hZ : Z ≠ 0) :
    0 < (value signed Z).natAbs := by
  rw [Int.natAbs_pos]
  intro h
  apply hZ
  cases signed with
  | true => exact BitVec.eq_of_toInt_eq h
  | false => exact BitVec.eq_of_toNat_eq (Int.ofNat.inj h)

theorem natAbs_value_lt (signed : Bool) (Z : BitVec 64) : (value signed Z).natAbs < 2 ^ 64 := by
  have hlt := Z.isLt
  cases signed with
  | true =>
    show Z.toInt.natAbs < _
    rw [← toNat_abs]
    exact Z.abs.isLt
  | false => exact hlt

theorem After.beforeLoop (op : DivOp) (signed : Bool) (x y : ℕ) :
    After (value signed (long L x)).natAbs (value signed (long L y)).natAbs
      ((laneRun active (beforeLoop op signed x y) L).reg k) 0
      (laneRun active (beforeLoop op signed x y) L) := by
  have hlt := natAbs_value_lt signed (long L x)
  refine ⟨?_, ?_, rfl⟩
  · intro hpos
    rw [numbers_beforeLoop]
    refine Inv.start 64 (hlt.trans_le ?_)
    exact Nat.le_mul_of_pos_left _ hpos
  · rw [(reg_beforeLoop active L op signed x y).1]
    rfl

/-- What the code behind the loop makes of it. -/
theorem After.behindLoop {L L' : Lane 32 (Reg DivTmp)} (op : DivOp) (signed : Bool)
    {x y dest : ℕ} (hy : long L y ≠ 0)
    (h : After (value signed (long L x)).natAbs (value signed (long L y)).natAbs
      ((laneRun active (LongCode.beforeLoop op signed x y) L).reg k) 64 L') :
    long (laneRun active (LongCode.behindLoop op signed dest) L') dest =
      op.exact signed (long L x) (long L y) := by
  have hsign : (signed && L'.reg k != 0) = (signed && op.negative (long L x) (long L y)) := by
    cases signed with
    | true => rw [h.sign, (reg_beforeLoop active L op true x y).2 rfl]
    | false => rfl
  rw [long_behindLoop, hsign]
  refine exact_eq op signed _ _ _ ?_
  cases op with
  | I64DIV => exact (h.inv (natAbs_value_pos signed hy)).quotient
  | I64REM => exact (h.inv (natAbs_value_pos signed hy)).remainder

end

section

open DivTmp

variable {mask : ℕ → Bool} {curr : Control} {l : ℕ} (hw : Whole curr) (hl : l < curr.execWidth)

include hw hl

/-- The flags that decide about the jump are those of active lanes. -/
theorem flag_testCount (s : State 32 (Reg DivTmp)) :
    (run mask (emit curr testCount) s).flag l =
      (mask l && decide ((s.reg m l).toNat < 64)) := by
  have hw' := fits_control hw.fits .masked
  have hl' : l < (Mode.control .masked curr).execWidth := hl
  have hlane := @lane_exec_op _ _ _ mask _ _ hw' hl' (exec mask (.MOVflag false) s)
    (.CMP .L false (.reg (.tmp m)) (.imm 64))
  rw [lane_setFlag hw.fits hl s false] at hlane
  refine (congrArg Simd.Lane.flag hlane).trans ?_
  have hon : On mask (Mode.control .masked curr) l (⟨(s.lane l).reg, false⟩ : Lane 32 (Reg DivTmp))
      = mask l := Bool.and_true _
  rw [hon]
  cases mask l with
  | true => rfl
  | false => rfl

end

section

variable {mask : ℕ → Bool} {curr : Control} (hw : Whole curr) (hp : curr.predicated = false)

include hw hp

theorem lane_run_active {l : ℕ} (hl : l < curr.execWidth) (hactive : mask l = true)
    (code : List (Item 32 (Reg DivTmp))) (s : State 32 (Reg DivTmp)) :
    (run mask (emit curr code) s).lane l = laneRun true code (s.lane l) := by
  rw [lane_run hw.fits hl hp (by rw [hactive, Bool.or_true]), hactive]

variable {X Y : ℕ → ℕ} {sign : ℕ → BitVec 32} {s : State 32 (Reg DivTmp)}

/-- All active lanes have done the same number of rounds. -/
theorem lane_rounds {l : ℕ} (hl : l < curr.execWidth) (hactive : mask l = true)
    (h : After (X l) (Y l) (sign l) 0 (s.lane l)) {n : ℕ} (hn : n ≤ 64) :
    After (X l) (Y l) (sign l) n (((fun s => (loopRound mask curr s).1)^[n] s).lane l) := by
  induction n with
  | zero => exact h
  | succ n ih =>
    simp only [Function.iterate_succ_apply', loopRound]
    rw [lane_run_active hw hp hl hactive]
    exact (ih (by omega)).round true (by omega)

/-- They jump back together, while a round is missing. -/
theorem loopRound_again (n : ℕ)
    (h : ∀ l < curr.execWidth, mask l = true → After (X l) (Y l) (sign l) n (s.lane l))
    (hn : n < 64) :
    (loopRound mask curr s).2 =
      ((List.range curr.execWidth).any mask && decide (n + 1 < 64)) := by
  have hflag : ∀ l < curr.execWidth,
      (run mask (emit curr (roundCode ++ testCount)) s).flag l =
        (mask l && decide (n + 1 < 64)) := by
    intro l hl
    have hcode : emit curr (roundCode ++ testCount) = emit curr roundCode ++ emit curr testCount :=
      List.flatMap_append
    rw [hcode, run_append, flag_testCount hw hl]
    by_cases hactive : mask l = true
    · have hcount : ((run mask (emit curr roundCode) s).reg (.tmp .m) l).toNat = n + 1 := by
        have hlane := lane_run_active hw hp hl hactive roundCode s
        have hone : (1 : BitVec 32).toNat = 1 := rfl
        refine (congrArg (fun L => (L.reg (.tmp .m)).toNat) hlane).trans ?_
        rw [(reg_roundCode _ _).1, BitVec.toNat_add, (h l hl hactive).count, hone,
          Nat.mod_eq_of_lt (by omega)]
      rw [hcount]
    · rw [Bool.eq_false_of_not_eq_true hactive]
      rfl
  simp only [loopRound, anyFlag]
  rw [Bool.eq_iff_iff, Bool.and_eq_true, List.any_eq_true, List.any_eq_true]
  constructor
  · rintro ⟨l, hl, hset⟩
    rw [hflag l (List.mem_range.mp hl), Bool.and_eq_true] at hset
    exact ⟨⟨l, hl, hset.1⟩, hset.2⟩
  · rintro ⟨⟨l, hl, hactive⟩, hlt⟩
    exact ⟨l, hl, by rw [hflag l (List.mem_range.mp hl), hactive, hlt]; rfl⟩

/-- The loop ends, and every active lane has done its 64 rounds. -/
theorem loop_exact
    (h : ∀ l < curr.execWidth, mask l = true → After (X l) (Y l) (sign l) 0 (s.lane l)) :
    ∃ s', (∀ fuel, 64 ≤ fuel → Iterate.untilStable (loopRound mask curr) fuel s = some s') ∧
      ∀ l < curr.execWidth, mask l = true → After (X l) (Y l) (sign l) 64 (s'.lane l) := by
  have hrounds : ∀ n ≤ 64, ∀ l < curr.execWidth, mask l = true →
      After (X l) (Y l) (sign l) n (((fun s => (loopRound mask curr s).1)^[n] s).lane l) :=
    fun n hn l hl hactive => lane_rounds hw hp hl hactive (h l hl hactive) hn
  have hagain : ∀ n < 64,
      (loopRound mask curr ((fun s => (loopRound mask curr s).1)^[n] s)).2 =
        ((List.range curr.execWidth).any mask && decide (n + 1 < 64)) :=
    fun n hn => loopRound_again hw hp n (hrounds n hn.le) hn
  by_cases hany : (List.range curr.execWidth).any mask = true
  · refine ⟨_, fun fuel hfuel => Iterate.untilStable_iterate (n := 63) (fun k hk => ?_) ?_ hfuel,
      hrounds 64 le_rfl⟩
    · rw [hagain k (by omega), hany, decide_eq_true (by omega)]
      rfl
    · rw [hagain 63 (by omega), decide_eq_false (by omega), Bool.and_false]
  · -- no active lane: one round is done, and nothing is asked of it
    refine ⟨_, fun fuel hfuel => Iterate.untilStable_iterate (n := 0)
      (fun k hk => absurd hk (Nat.not_lt_zero k)) ?_ (by omega : 0 < fuel), fun l hl hactive => ?_⟩
    · rw [hagain 0 (by omega), Bool.eq_false_of_not_eq_true hany, Bool.false_and]
    · exact absurd (List.any_eq_true.mpr ⟨l, List.mem_range.mpr hl, hactive⟩) hany

end

/-- Division and remainder end, and are exact in every active lane whose divisor is not 0. -/
theorem divrem_exact {curr : Control} (hw : Whole curr) (hp : curr.predicated = false)
    (mask : ℕ → Bool) (op : DivOp) (signed : Bool) (dest x y : ℕ) (s : State 32 (Reg DivTmp)) :
    ∃ s', (∀ fuel, 64 ≤ fuel → runI64DIVREM mask curr op signed dest x y fuel s = some s') ∧
      ∀ l < curr.execWidth, mask l = true → long (s.lane l) y ≠ 0 →
        long (s'.lane l) dest = op.exact signed (long (s.lane l) x) (long (s.lane l) y) := by
  obtain ⟨s', hloop, hafter⟩ := loop_exact hw hp
    (s := run mask (emit curr (beforeLoop op signed x y)) s) fun l hl hactive => by
      rw [lane_run_active hw hp hl hactive]
      exact After.beforeLoop true (s.lane l) op signed x y
  refine ⟨run mask (emit curr (behindLoop op signed dest)) s', fun fuel hfuel => ?_,
    fun l hl hactive hy => ?_⟩
  · rw [runI64DIVREM, hloop fuel hfuel]
    rfl
  · rw [lane_run_active hw hp hl hactive]
    exact After.behindLoop true op signed hy (hafter l hl hactive)

theorem divrem_exact_sixteen :
    let s : State 32 (Reg DivTmp) := filled 5
    ∃ s', (∀ fuel, 64 ≤ fuel → runI64DIVREM (fun l => l == 9) ⟨16, 0, 0, false, false⟩
        .I64DIV true 0 1 2 fuel s = some s') ∧
      ∀ l < 16, (l == 9) = true → long (s.lane l) 2 ≠ 0 →
        long (s'.lane l) 0 = DivOp.I64DIV.exact true (long (s.lane l) 1) (long (s.lane l) 2) :=
  divrem_exact ⟨.inr rfl, rfl, rfl⟩ rfl (fun l => l == 9) .I64DIV true 0 1 2 (filled 5)

/-- -2^63 / -1 wraps around. -/
example : DivOp.I64DIV.exact true 0x8000000000000000 0xFFFFFFFFFFFFFFFF = 0x8000000000000000 := by
  decide

end LongCode

end Backend
