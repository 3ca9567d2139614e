/-
Addition, subtraction, shifts and comparisons of longs on Gen7: `I64ADD` and `I64SUB` of
`emitBinaryWithTempInstruction`, `emitI64ShiftInstruction` and `emitI64CompareInstruction`.

A comparison keeps the flag register in three words of a temporary, `f1` to `f3`, and combines
them there.

* `long_emitI64ADD`, `long_emitI64SUB`, `long_emitI64Shift`, `flag_emitI64Compare` — what an
  executed lane gets.
-/
import Beignet.Backend.LongCode

namespace Backend

namespace LongCode

open Simd

/-! ### Addition and subtraction -/

inductive AddTmp where
  | x | y
  deriving DecidableEq

section

open AddTmp

def emitI64ADD (dst src0 src1 : ℕ) : List (Item 32 (Reg AddTmp)) :=
  [.under .curr [loadBottomHalf x src0, loadBottomHalf y src1, .addWithCarry x x y,
    storeBottomHalf dst x, loadTopHalf x src0, .alu2 .ADD x x y, loadTopHalf y src1,
    .alu2 .ADD x x y, storeTopHalf dst x]]

def emitI64SUB (dst src0 src1 : ℕ) : List (Item 32 (Reg AddTmp)) :=
  [.under .curr [loadBottomHalf x src0, loadBottomHalf y src1, .subWithBorrow x x y,
    storeBottomHalf dst x, loadTopHalf x src0, .subWithBorrow x x y, loadTopHalf y src1,
    .subWithBorrow x x y, storeTopHalf dst x]]

end

variable (active : Bool)

theorem long_emitI64ADD (L : Lane 32 (Reg AddTmp)) (dst src0 src1 : ℕ) :
    long (laneRun active (emitI64ADD dst src0 src1) L) dst = long L src0 + long L src1 := by
  refine Eq.trans ?_ (SplitWord.append_add_append (L.reg (.top src0)) (L.reg (.bottom src0))
    (L.reg (.top src1)) (L.reg (.bottom src1))).symm
  simp [emitI64ADD, long, carry, BitVec.add_assoc, BitVec.add_comm]

theorem long_emitI64SUB (L : Lane 32 (Reg AddTmp)) (dst src0 src1 : ℕ) :
    long (laneRun active (emitI64SUB dst src0 src1) L) dst = long L src0 - long L src1 := by
  refine Eq.trans ?_ (SplitWord.append_sub_append (L.reg (.top src0)) (L.reg (.bottom src0))
    (L.reg (.top src1)) (L.reg (.bottom src1))).symm
  rw [sub_right_comm]
  simp [emitI64SUB, long, ofNat_borrow]

/-! ### Shifts -/

inductive ShiftOp where
  | I64SHL | I64SHR | I64ASR

/-- What a shift is for. -/
def ShiftOp.eval : ShiftOp → BitVec 64 → BitVec 64 → BitVec 64
  | I64SHL, x, y => x <<< (y.toNat % 64)
  | I64SHR, x, y => x >>> (y.toNat % 64)
  | I64ASR, x, y => x.sshiftRight (y.toNat % 64)

inductive ShiftTmp where
  | a | b | c | d | e | f
  deriving DecidableEq

section

open ShiftTmp

def collectShifter (dest : Reg ShiftTmp) (src : ℕ) : Step 32 (Reg ShiftTmp) :=
  .alu2 .AND dest (.reg (.bottom src)) (.imm 63)

/-- The selects: the crossing bits are left out for a count of 0, and for a count from 32 on the
half that gets nothing from the other one becomes `rest`. -/
def select (rest : Src 32 (Reg ShiftTmp)) (fill : List (Step 32 (Reg ShiftTmp))) :
    List (Item 32 (Reg ShiftTmp)) :=
  [.under .all [.setFlag true],
    .under .flagged [.CMP .Z false a (.imm 0), .SEL d d e],
    .under .all [.alu2 .AND a a (.imm 32)], .under .all fill, .under .all [.setFlag true],
    .under .flagged [.CMP .Z false a (.imm 0), .SEL d d c, .SEL c c rest]]

def emitI64Shift (op : ShiftOp) (dest x y : ℕ) : List (Item 32 (Reg ShiftTmp)) :=
  .under .all [collectShifter a y, loadBottomHalf e x, loadTopHalf f x] ::
  match op with
  | .I64SHL =>
    .under .all [.alu2 .SHR b e (.neg a), .alu2 .SHL c e a, .alu2 .SHL d f a, .alu2 .OR e d b] ::
    select (.imm 0) [] ++ [.under .curr [storeBottomHalf dest c, storeTopHalf dest d]]
  | .I64SHR =>
    .under .all [.alu2 .SHL b f (.neg a), .alu2 .SHR c f a, .alu2 .SHR d e a, .alu2 .OR e d b] ::
    select (.imm 0) [] ++ [.under .curr [storeBottomHalf dest d, storeTopHalf dest c]]
  | .I64ASR =>
    .under .all [.alu2 .SHL b f (.neg a), .alu2 .ASR c f a, .alu2 .SHR d e a, .alu2 .OR e d b] ::
    select f [.alu2 .ASR f f (.imm 31)] ++
    [.under .curr [storeBottomHalf dest d, storeTopHalf dest c]]

/-- The count of a shift. -/
theorem toNat_count (L : Lane 32 (Reg ShiftTmp)) (y : ℕ) :
    (L.reg (.bottom y) &&& 63).toNat = (long L y).toNat % 64 := by
  have htoNat : (long L y).toNat = (L.reg (.top y)).toNat * 2 ^ 32 + (L.reg (.bottom y)).toNat :=
    SplitWord.toNat_append _ _
  have hand : ∀ n : ℕ, n &&& 63 = n % 64 := fun n => Nat.and_two_pow_sub_one_eq_mod n 6
  rw [BitVec.toNat_and, htoNat]
  exact (hand _).trans (by omega)

/-- The two tests of a count. -/
theorem count_tests {a : BitVec 32} (ha : a.toNat < 64) :
    (a == 0) = decide (a.toNat = 0) ∧ (a &&& 32 == 0) = decide (a.toNat < 32) := by
  have hbit : ∀ n < 64, (n &&& 32 = 0 ↔ n < 32) := by decide
  constructor
  · rw [Bool.eq_iff_iff, beq_iff_eq, decide_eq_true_iff, ← BitVec.toNat_inj]
    rfl
  · rw [Bool.eq_iff_iff, beq_iff_eq, decide_eq_true_iff, ← BitVec.toNat_inj, BitVec.toNat_and]
    exact hbit _ ha

theorem toNat_neg_count {a : BitVec 32} (hpos : 0 < a.toNat) (ha : a.toNat < 32) :
    (-a).toNat % 32 = 32 - a.toNat := by
  rw [BitVec.toNat_neg]
  omega

/-- A count is 0, or moves bits from one half to the other, or moves a whole half. -/
theorem count_cases (n : ℕ) : n = 0 ∨ (0 < n ∧ n < 32) ∨ 32 ≤ n := by
  omega

theorem long_emitI64Shift (op : ShiftOp) (L : Lane 32 (Reg ShiftTmp)) (dest x y : ℕ) :
    long (laneRun active (emitI64Shift op dest x y) L) dest =
      op.eval (long L x) (long L y) := by
  have ha : (L.reg (.bottom y) &&& 63).toNat < 64 := toNat_count L y ▸ Nat.mod_lt _ (by decide)
  obtain ⟨hzero, hhalf⟩ := count_tests ha
  simp only [BitVec.ofNat_eq_ofNat] at hzero hhalf ha
  cases op
  all_goals
    rw [ShiftOp.eval, ← toNat_count]
    simp [-BitVec.toNat_and, -BitVec.toNat_neg, emitI64Shift, select, collectShifter, long,
      Cond.eval]
    generalize L.reg (.bottom y) &&& 63#32 = a at hzero hhalf ha ⊢
    rw [hzero, hhalf]
    obtain h | ⟨hpos, hlt⟩ | hge := count_cases a.toNat
    on_goal 1 => simp [h]
    on_goal 1 =>
      rw [toNat_neg_count hpos hlt]
      simp [hpos.ne', hlt, Nat.mod_eq_of_lt hlt]
    on_goal 2 =>
      have hmod : a.toNat % 32 = a.toNat - 32 := by omega
      simp [hge.not_gt, hmod]
  · exact (SplitWord.shiftLeft_append _ _ hlt).symm
  · exact (SplitWord.shiftLeft_append_of_le _ _ hge).symm
  · exact (SplitWord.ushiftRight_append _ _ hlt).symm
  · exact (SplitWord.ushiftRight_append_of_le _ _ hge).symm
  · exact (SplitWord.sshiftRight_append _ _ hlt).symm
  · exact (SplitWord.sshiftRight_append_of_le _ _ hge).symm

end

/-! ### Comparisons -/

inductive CmpTmp where
  | tmp0 | tmp1
  deriving DecidableEq

/-- The words that keep flags. -/
inductive Word where
  | f1 | f2 | f3
  deriving DecidableEq

/-- A thread with its flag words, by their bits. -/
structure FlagState where
  thread : State 32 (Reg CmpTmp)
  word : Word → ℕ → Bool

inductive FlagItem where
  | items (code : List (Item 32 (Reg CmpTmp)))
  | saveFlag (dest : Word)
  | AND (dest src0 src1 : Word)
  | OR (dest src0 src1 : Word)
  /-- back to the flag register -/
  | MOVflag (src : Word)

def FlagItem.exec (mask : ℕ → Bool) (curr : Control) (i : FlagItem) (s : FlagState) :
    FlagState :=
  match i with
  | items code => { s with thread := run mask (emit curr code) s.thread }
  | saveFlag dest => { s with word := Function.update s.word dest s.thread.flag }
  | AND dest src0 src1 =>
    { s with word := Function.update s.word dest fun l => s.word src0 l && s.word src1 l }
  | OR dest src0 src1 =>
    { s with word := Function.update s.word dest fun l => s.word src0 l || s.word src1 l }
  | MOVflag src =>
    { s with thread := { s.thread with
        flag := fun l => if l < 16 then s.word src l else s.thread.flag l } }

def runFlags (mask : ℕ → Bool) (curr : Control) (code : List FlagItem) (s : FlagState) :
    FlagState :=
  code.foldl (fun s i => i.exec mask curr s) s

/-- The condition on the upper halves. -/
def cmpTopHalf : Cond → Cond
  | .LE => .L
  | .GE => .G
  | cond => cond

section

open CmpTmp Word

def emitI64Compare (function : Cond) (signed : Bool) (src0 src1 : ℕ) : List FlagItem :=
  let tops (cond : Cond) : FlagItem := .items [.under .all [.CMP cond signed tmp0 tmp1]]
  let bottoms : FlagItem := .items [.under .all [loadBottomHalf tmp0 src0,
    loadBottomHalf tmp1 src1, .CMP function false tmp0 tmp1]]
  .items [.under .all [loadTopHalf tmp0 src0, loadTopHalf tmp1 src1]] ::
  (match function with
  | .Z => [tops .Z, .saveFlag f1, bottoms, .saveFlag f2, .AND f1 f1 f2]
  | .NZ => [tops .NZ, .saveFlag f1, bottoms, .saveFlag f2, .OR f1 f1 f2]
  | _ => [tops (cmpTopHalf function), .saveFlag f1, tops .Z, .saveFlag f2, bottoms, .saveFlag f3,
      .AND f2 f2 f3, .OR f1 f1 f2]) ++
  [FlagItem.MOVflag f1]

end

/-- One lane with its bit of each word. -/
structure FlagLane where
  lane : Lane 32 (Reg CmpTmp)
  word : Word → Bool

def FlagState.lane (s : FlagState) (l : ℕ) : FlagLane := ⟨s.thread.lane l, fun f => s.word f l⟩

def FlagItem.laneExec (i : FlagItem) (s : FlagLane) : FlagLane :=
  match i with
  | items code => { s with lane := laneRun active code s.lane }
  | saveFlag dest => { s with word := Function.update s.word dest s.lane.flag }
  | AND dest src0 src1 =>
    { s with word := Function.update s.word dest (s.word src0 && s.word src1) }
  | OR dest src0 src1 =>
    { s with word := Function.update s.word dest (s.word src0 || s.word src1) }
  | MOVflag src => { s with lane := ⟨s.lane.reg, s.word src⟩ }

section

variable {mask : ℕ → Bool} {curr : Control} {l : ℕ} (hw : Whole curr) (hl : l < curr.execWidth)
  (hp : curr.predicated = false) (hon : (curr.noMask || mask l) = true)

include hw hl hp hon

theorem lane_exec_flagItem (i : FlagItem) (s : FlagState) :
    (i.exec mask curr s).lane l = i.laneExec (mask l) (s.lane l) := by
  have hword : ∀ (word : Word → ℕ → Bool) dest (bits : ℕ → Bool),
      (fun f => Function.update word dest bits f l) =
        Function.update (fun f => word f l) dest (bits l) := by
    intro word dest bits
    funext f
    rw [Function.update_apply, Function.update_apply]
    split
    · rfl
    · rfl
  cases i with
  | items code =>
    show FlagLane.mk ((run mask (emit curr code) s.thread).lane l) _ = _
    rw [lane_run hw.fits hl hp hon]
    rfl
  | saveFlag dest => exact congrArg (FlagLane.mk _) (hword _ _ _)
  | AND dest src0 src1 => exact congrArg (FlagLane.mk _) (hword _ _ _)
  | OR dest src0 src1 => exact congrArg (FlagLane.mk _) (hword _ _ _)
  | MOVflag src =>
    have hlt : l < 16 := by
      obtain h | h := hw.execWidth
      · omega
      · omega
    simp [FlagItem.exec, FlagItem.laneExec, FlagState.lane, State.lane, hlt]

theorem lane_runFlags (code : List FlagItem) (s : FlagState) :
    (runFlags mask curr code s).lane l =
      code.foldl (fun s i => i.laneExec (mask l) s) (s.lane l) := by
  induction code generalizing s with
  | nil => rfl
  | cons i code ih =>
    rw [List.foldl_cons, ← lane_exec_flagItem hw hl hp hon, ← ih]
    rfl

end

/-- A comparison by halves. -/
theorem eval_append (cond : Cond) (signed : Bool) (v u v' u' : BitVec 32) :
    cond.eval signed (v ++ u) (v' ++ u') = match cond with
      | .Z => v == v' && u == u'
      | .NZ => v != v' || u != u'
      | cond => (cmpTopHalf cond).eval signed v v' || (v == v' && cond.eval false u u') := by
  have heq : (v ++ u == v' ++ u') = (v == v' && u == u') := by
    rw [Bool.eq_iff_iff, Bool.and_eq_true, beq_iff_eq, beq_iff_eq, beq_iff_eq]
    exact SplitWord.append_inj
  cases cond with
  | Z => exact heq
  | NZ => exact (congrArg not heq).trans (Bool.not_and _ _)
  | G =>
    rw [BEq.comm (a := v)]
    cases signed with
    | true => exact SplitWord.slt_append v' u' v u (by decide)
    | false => exact SplitWord.ult_append v' u' v u
  | GE =>
    rw [BEq.comm (a := v)]
    cases signed with
    | true => exact SplitWord.sle_append v' u' v u (by decide)
    | false => exact SplitWord.ule_append v' u' v u
  | L =>
    cases signed with
    | true => exact SplitWord.slt_append v u v' u' (by decide)
    | false => exact SplitWord.ult_append v u v' u'
  | LE =>
    cases signed with
    | true => exact SplitWord.sle_append v u v' u' (by decide)
    | false => exact SplitWord.ule_append v u v' u'

/-- All instructions of a comparison are without a mask. -/
theorem runFlags_noMask (mask : ℕ → Bool) (curr : Control) (function : Cond) (signed : Bool)
    (src0 src1 : ℕ) (s : FlagState) :
    runFlags mask curr (emitI64Compare function signed src0 src1) s =
      runFlags mask { curr with noMask := true, predicated := false }
        (emitI64Compare function signed src0 src1) s := by
  cases function with
  | Z => rfl
  | NZ => rfl
  | G => rfl
  | GE => rfl
  | L => rfl
  | LE => rfl

theorem flag_emitI64Compare {mask : ℕ → Bool} {curr : Control} {l : ℕ} (hw : Whole curr)
    (hl : l < curr.execWidth) (function : Cond) (signed : Bool) (src0 src1 : ℕ) (s : FlagState) :
    (runFlags mask curr (emitI64Compare function signed src0 src1) s).thread.flag l =
      function.eval signed (long (s.thread.lane l) src0) (long (s.thread.lane l) src1) := by
  rw [runFlags_noMask]
  have h := @lane_runFlags mask _ l (hw.withMask true false) hl rfl rfl
    (emitI64Compare function signed src0 src1) s
  refine (congrArg (fun s => s.lane.flag) h).trans ?_
  rw [long, long]
  refine Eq.trans ?_ (eval_append _ _ _ _ _ _).symm
  cases function with
  | Z =>
    simp [emitI64Compare, FlagItem.laneExec, Cond.eval]
    rfl
  | NZ =>
    simp [emitI64Compare, FlagItem.laneExec]
    rfl
  | G =>
    simp [emitI64Compare, FlagItem.laneExec]
    rfl
  | GE =>
    simp [emitI64Compare, FlagItem.laneExec]
    rfl
  | L =>
    simp [emitI64Compare, FlagItem.laneExec]
    rfl
  | LE =>
    simp [emitI64Compare, FlagItem.laneExec]
    rfl

/-! ### The emulation -/

/-- Shifts, comparisons, addition and subtraction of longs are those of 64-bit words. -/
theorem emulation_exact {mask : ℕ → Bool} {curr : Control} {l : ℕ} (hw : Whole curr)
    (hl : l < curr.execWidth) (dst x y : ℕ) :
    (curr.predicated = false → (curr.noMask || mask l) = true →
      (∀ op s, long ((run mask (emit curr (emitI64Shift op dst x y)) s).lane l) dst =
        op.eval (long (s.lane l) x) (long (s.lane l) y)) ∧
      (∀ s, long ((run mask (emit curr (emitI64ADD dst x y)) s).lane l) dst =
        long (s.lane l) x + long (s.lane l) y) ∧
      (∀ s, long ((run mask (emit curr (emitI64SUB dst x y)) s).lane l) dst =
        long (s.lane l) x - long (s.lane l) y)) ∧
    ∀ cond signed s, (runFlags mask curr (emitI64Compare cond signed x y) s).thread.flag l =
      cond.eval signed (long (s.thread.lane l) x) (long (s.thread.lane l) y) := by
  refine ⟨fun hp hon => ⟨fun op s => ?_, fun s => ?_, fun s => ?_⟩,
    fun cond signed s => flag_emitI64Compare hw hl cond signed x y s⟩
  · rw [lane_run hw.fits hl hp hon]
    exact long_emitI64Shift _ op _ dst x y
  · rw [lane_run hw.fits hl hp hon]
    exact long_emitI64ADD _ _ dst x y
  · rw [lane_run hw.fits hl hp hon]
    exact long_emitI64SUB _ _ dst x y

/-- Sixteen lanes under a mask that leaves one of them out. -/
theorem emulation_exact_sixteen :
    let s : State 32 (Reg AddTmp) := filled 5
    long ((run (fun l => decide (l ≠ 3)) (emit ⟨16, 0, 0, false, false⟩ (emitI64ADD 0 0 1)) s).lane
      9) 0 = long (s.lane 9) 0 + long (s.lane 9) 1 :=
  ((emulation_exact ⟨.inr rfl, rfl, rfl⟩ (by decide) 0 0 1).1 rfl (by decide)).2.1 (filled 5)

end LongCode

end Backend
