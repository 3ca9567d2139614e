/-
The instructions emitted for 64-bit arithmetic: on dwords for Gen7 (`gen_context.cpp`), where a
long is kept in two registers, one for each half of it, and on qwords for Gen8
(`gen8_context.cpp`).

An emitter is a list of steps: instructions and the helpers `addWithCarry`, `subWithBorrow` and
`setFlag`, under the predicate and the mask control of `p->curr`.  The machine is that of `Simd`;
a `SEL` takes its first source where the flag is set, and a shift counts modulo the size of the
operands.

* `lane_run` — what a list of steps does in one executed lane.
-/
import Beignet.Lib.Simd
import Beignet.Lib.SplitWord

set_option linter.constructorNameAsVariable false

namespace Backend

namespace LongCode

open Simd

/-! ### Operations -/

variable {size : ℕ}

inductive Src (size : ℕ) (R : Type*) where
  | reg (r : R)
  /-- `GenRegister::negate` -/
  | neg (r : R)
  | imm (v : BitVec size)

/-- The condition of a `CMP`; `EQ` and `NEQ` are `Z` and `NZ`. -/
inductive Cond where
  | Z | NZ | G | GE | L | LE

inductive Alu1 (size : ℕ) where
  | MOV | NOT
  /-- the number of leading zeros, and all ones for 0 -/
  | FBH
  /-- to another type -/
  | convert (f : BitVec size → BitVec size)

inductive Alu2 where
  | ADD | AND | OR | XOR | SHL | SHR | ASR

/-- The comparison, of the signed or the unsigned values. -/
def Cond.eval (cond : Cond) (signed : Bool) (v w : BitVec size) : Bool :=
  match cond with
  | Z => v == w
  | NZ => v != w
  | G => if signed then w.slt v else w.ult v
  | GE => if signed then w.sle v else w.ule v
  | L => if signed then v.slt w else v.ult w
  | LE => if signed then v.sle w else v.ule w

def Alu1.eval : Alu1 size → BitVec size → BitVec size
  | MOV, v => v
  | NOT, v => ~~~ v
  | FBH, v => if v = 0 then BitVec.allOnes size else v.clz
  | convert f, v => f v

def Alu2.eval : Alu2 → BitVec size → BitVec size → BitVec size
  | ADD, v, w => v + w
  | AND, v, w => v &&& w
  | OR, v, w => v ||| w
  | XOR, v, w => v ^^^ w
  | SHL, v, w => v <<< (w.toNat % size)
  | SHR, v, w => v >>> (w.toNat % size)
  | ASR, v, w => v.sshiftRight (w.toNat % size)

section

variable {R : Type*}

def Src.get (src : Src size R) (r : R → BitVec size) : BitVec size :=
  match src with
  | reg r' => r r'
  | neg r' => -r r'
  | imm v => v

/-- What one instruction does in a channel. -/
inductive Op (size : ℕ) (R : Type*) where
  | alu1 (f : Alu1 size) (dst : R) (src : Src size R)
  | alu2 (f : Alu2) (dst : R) (src0 src1 : Src size R)
  | CMP (cond : Cond) (signed : Bool) (src0 src1 : Src size R)
  | ADDC (dst src0 src1 : R)
  | SUBB (dst src0 src1 : R)
  /-- from the accumulator -/
  | MOVacc (dst : R)
  /-- with the accumulator as the first source -/
  | alu2acc (f : Alu2) (dst : R) (src1 : Src size R)

/-- The carry that `ADDC` leaves. -/
def carry (v w : BitVec size) : ℕ := (v.toNat + w.toNat) / 2 ^ size

/-- The borrow that `SUBB` leaves. -/
def borrow (v w : BitVec size) : ℕ := if v.toNat < w.toNat then 1 else 0

/-- What an operation does in one lane. -/
def Op.eval (op : Op size R) (r : R → BitVec size) (acc : ℕ) : Effect R (BitVec size) :=
  match op with
  | alu1 f dst src => .toReg dst (f.eval (src.get r))
  | alu2 f dst src0 src1 => .toReg dst (f.eval (src0.get r) (src1.get r))
  | CMP cond signed src0 src1 => .toFlag (cond.eval signed (src0.get r) (src1.get r))
  | ADDC dst src0 src1 => .toRegAcc dst (r src0 + r src1) (carry (r src0) (r src1))
  | SUBB dst src0 src1 => .toRegAcc dst (r src0 - r src1) (borrow (r src0) (r src1))
  | MOVacc dst => .toReg dst (BitVec.ofNat size acc)
  | alu2acc f dst src1 => .toReg dst (f.eval (BitVec.ofNat size acc) (src1.get r))

/-- Registers of one width. -/
abbrev State (size : ℕ) (R : Type*) := Simd.State R (BitVec size)

abbrev Lane (size : ℕ) (R : Type*) := Simd.Lane R (BitVec size)

/-- All registers hold the same word. -/
def filled (v : BitVec size) : State size R := ⟨fun _ _ => v, fun _ => 0, fun _ => false⟩

/-! ### Instructions -/

/-- One instruction with its control. -/
inductive Insn (size : ℕ) (R : Type*) where
  | op (op : Op size R) (c : Control)
  | SEL (dst : R) (src0 src1 : Src size R) (c : Control)
  /-- all bits of the flag, from an immediate of 0xFFFF or 0 -/
  | MOVflag (bits : Bool)

variable [DecidableEq R]

/-- One instruction. -/
def exec (mask : ℕ → Bool) (i : Insn size R) (s : State size R) : State size R :=
  match i with
  | .op op c => Simd.exec Op.eval mask (op, c) s
  | .SEL dst src0 src1 c =>
    -- the predicate chooses between the sources, it does not disable a channel
    { s with
      reg := fun r lane =>
        if c.suboffset ≤ lane &&
            { c with predicated := false }.enabled mask s.flag (lane - c.suboffset) then
          Function.update (fun r' => s.reg r' lane) dst
            ((if s.flag (8 * c.quarter + (lane - c.suboffset)) then src0 else src1).get
              fun r' => s.reg r' lane) r
        else s.reg r lane }
  | .MOVflag bits => { s with flag := fun l => if l < 16 then bits else s.flag l }

/-- A list of instructions. -/
def run (mask : ℕ → Bool) (code : List (Insn size R)) (s : State size R) : State size R :=
  code.foldl (fun s i => exec mask i s) s

@[simp] theorem run_nil (mask : ℕ → Bool) (s : State size R) : run mask [] s = s := rfl

@[simp] theorem run_cons (mask : ℕ → Bool) (i : Insn size R) (code : List (Insn size R))
    (s : State size R) :
    run mask (i :: code) s = run mask code (exec mask i s) := rfl

@[simp] theorem run_append (mask : ℕ → Bool) (code1 code2 : List (Insn size R)) (s : State size R) :
    run mask (code1 ++ code2) s = run mask code2 (run mask code1 s) := by
  simp [run]

/-- Operations without a `SEL` run on the machine of `Simd`. -/
theorem run_ops (mask : ℕ → Bool) (code : List (Op size R × Control)) (s : State size R) :
    run mask (code.map fun i => .op i.1 i.2) s = Simd.run Op.eval mask code s := by
  simp only [run, List.foldl_map]
  rfl

/-! ### Steps -/

/-- The predicate and the mask control of `p->curr`. -/
inductive Mode where
  /-- those of the instruction -/
  | curr
  /-- `noMask = 1`, `GEN_PREDICATE_NONE` -/
  | all
  /-- `noMask = 1`, `GEN_PREDICATE_NORMAL` -/
  | flagged
  /-- `noMask = 0`, `GEN_PREDICATE_NONE` -/
  | masked
  /-- `noMask = 0`, `GEN_PREDICATE_NORMAL` -/
  | maskedFlagged

def Mode.control : Mode → Control → Control
  | curr, c => c
  | all, c => { c with noMask := true, predicated := false }
  | flagged, c => { c with noMask := true, predicated := true }
  | masked, c => { c with noMask := false, predicated := false }
  | maskedFlagged, c => { c with noMask := false, predicated := true }

inductive Step (size : ℕ) (R : Type*) where
  | alu1 (f : Alu1 size) (dst : R) (src : Src size R)
  | alu2 (f : Alu2) (dst : R) (src0 src1 : Src size R)
  | CMP (cond : Cond) (signed : Bool) (src0 src1 : Src size R)
  | SEL (dst : R) (src0 src1 : Src size R)
  | setFlag (bits : Bool)
  | addWithCarry (dest src0 src1 : R)
  | subWithBorrow (dest src0 src1 : R)

/-- Steps under the same controls. -/
inductive Item (size : ℕ) (R : Type*) where
  | under (m : Mode) (steps : List (Step size R))

def Step.emit (c : Control) : Step size R → List (Insn size R)
  | alu1 f dst src => [.op (.alu1 f dst src) c]
  | alu2 f dst src0 src1 => [.op (.alu2 f dst src0 src1) c]
  | CMP cond signed src0 src1 => [.op (.CMP cond signed src0 src1) c]
  | SEL dst src0 src1 => [.SEL dst src0 src1 c]
  | setFlag bits => [.MOVflag bits]
  | addWithCarry dest src0 src1 =>
    (halves c fun half => [(.ADDC dest src0 src1, half), (.MOVacc src1, half)]).map
      fun i => .op i.1 i.2
  | subWithBorrow dest src0 src1 =>
    (halves c fun half => [(.SUBB dest src0 src1, half), (.MOVacc src1, half)]).map
      fun i => .op i.1 i.2

def Item.emit (curr : Control) : Item size R → List (Insn size R)
  | under m steps => steps.flatMap (Step.emit (m.control curr))

def emit (curr : Control) (code : List (Item size R)) : List (Insn size R) :=
  code.flatMap (Item.emit curr)

/-! ### One lane -/

def Mode.predicated : Mode → Bool
  | flagged => true
  | maskedFlagged => true
  | _ => false

/-- The mask control leaves the lane on, if the mask bit of the lane is `active`. -/
def Mode.unmasked (active : Bool) : Mode → Bool
  | masked => active
  | maskedFlagged => active
  | _ => true

def Mode.on (active flag : Bool) (m : Mode) : Bool :=
  m.unmasked active && (!m.predicated || flag)

def write (on : Bool) (dst : R) (v : BitVec size) (L : Lane size R) : Lane size R :=
  ⟨Function.update L.reg dst (bif on then v else L.reg dst), L.flag⟩

def laneStep (unmasked on : Bool) (L : Lane size R) : Step size R → Lane size R
  | .alu1 f dst src => write on dst (f.eval (src.get L.reg)) L
  | .alu2 f dst src0 src1 => write on dst (f.eval (src0.get L.reg) (src1.get L.reg)) L
  | .CMP cond signed src0 src1 =>
    ⟨L.reg, bif on then cond.eval signed (src0.get L.reg) (src1.get L.reg) else L.flag⟩
  | .SEL dst src0 src1 =>
    write unmasked dst (bif L.flag then src0.get L.reg else src1.get L.reg) L
  | .setFlag bits => ⟨L.reg, bits⟩
  | .addWithCarry dest src0 src1 =>
    write on src1 (BitVec.ofNat size (carry (L.reg src0) (L.reg src1)))
      (write on dest (L.reg src0 + L.reg src1) L)
  | .subWithBorrow dest src0 src1 =>
    write on src1 (BitVec.ofNat size (borrow (L.reg src0) (L.reg src1)))
      (write on dest (L.reg src0 - L.reg src1) L)

def laneSteps (active : Bool) (m : Mode) (steps : List (Step size R)) (L : Lane size R) :
    Lane size R :=
  steps.foldl (fun L s => laneStep (m.unmasked active) (m.on active L.flag) L s) L

def laneItem (active : Bool) (L : Lane size R) : Item size R → Lane size R
  | .under m steps => laneSteps active m steps L

def laneRun (active : Bool) (code : List (Item size R)) (L : Lane size R) : Lane size R :=
  code.foldl (laneItem active) L

attribute [simp] Src.get Alu1.eval Alu2.eval Mode.on Mode.unmasked Mode.predicated laneStep
  laneItem

@[simp] theorem reg_write (on : Bool) (dst : R) (v : BitVec size) (L : Lane size R) (r : R) :
    (write on dst v L).reg r = if r = dst then bif on then v else L.reg dst else L.reg r :=
  Function.update_apply L.reg dst _ r

@[simp] theorem flag_write (on : Bool) (dst : R) (v : BitVec size) (L : Lane size R) :
    (write on dst v L).flag = L.flag := rfl

@[simp] theorem laneSteps_nil (active : Bool) (m : Mode) (L : Lane size R) :
    laneSteps active m [] L = L := rfl

@[simp] theorem laneSteps_cons (active : Bool) (m : Mode) (step : Step size R)
    (steps : List (Step size R)) (L : Lane size R) : laneSteps active m (step :: steps) L =
      laneSteps active m steps (laneStep (m.unmasked active) (m.on active L.flag) L step) := rfl

@[simp] theorem laneRun_nil (active : Bool) (L : Lane size R) : laneRun active [] L = L := rfl

@[simp] theorem laneRun_cons (active : Bool) (i : Item size R) (code : List (Item size R))
    (L : Lane size R) :
    laneRun active (i :: code) L = laneRun active code (laneItem active L i) := rfl

@[simp] theorem laneRun_append (active : Bool) (code1 code2 : List (Item size R))
    (L : Lane size R) :
    laneRun active (code1 ++ code2) L = laneRun active code2 (laneRun active code1 L) := by
  simp [laneRun]

/-! ### From the machine to a lane -/

variable {mask : ℕ → Bool} {curr : Control} {l : ℕ}

theorem fits_control (hw : Fits curr) (m : Mode) : Fits (m.control curr) := by
  cases m with
  | curr => exact hw
  | all => exact hw.withMask true false
  | flagged => exact hw.withMask true true
  | masked => exact hw.withMask false false
  | maskedFlagged => exact hw.withMask false true

theorem execWidth_control (m : Mode) (c : Control) : (m.control c).execWidth = c.execWidth := by
  cases m with
  | curr => rfl
  | all => rfl
  | flagged => rfl
  | masked => rfl
  | maskedFlagged => rfl

theorem unmasked_control (hon : (curr.noMask || mask l) = true) (m : Mode) :
    ((m.control curr).noMask || mask l) = m.unmasked (mask l) := by
  cases m with
  | curr => exact hon
  | all => rfl
  | flagged => rfl
  | masked => rfl
  | maskedFlagged => rfl

theorem predicated_control (hp : curr.predicated = false) (m : Mode) :
    (m.control curr).predicated = m.predicated := by
  cases m with
  | curr => exact hp
  | all => rfl
  | flagged => rfl
  | masked => rfl
  | maskedFlagged => rfl

omit [DecidableEq R] in
theorem on_control (hp : curr.predicated = false) (hon : (curr.noMask || mask l) = true)
    (m : Mode) (L : Lane size R) :
    On mask (m.control curr) l L = m.on (mask l) L.flag := by
  rw [On, unmasked_control hon, predicated_control hp, Mode.on]

theorem write_false (dst : R) (v : BitVec size) (L : Lane size R) : write false dst v L = L := by
  rw [write, cond_false, Function.update_eq_self]

theorem ite_toReg (on : Bool) (dst : R) (v : BitVec size) (L : Lane size R) :
    (if on then (Effect.toReg dst v).apply L else L) = write on dst v L := by
  cases on with
  | true => rfl
  | false => exact (write_false dst v L).symm

theorem ite_toFlag (on v : Bool) (L : Lane size R) :
    (if on then (Effect.toFlag v : Effect R (BitVec size)).apply L else L) =
      ⟨L.reg, bif on then v else L.flag⟩ := by
  cases on with
  | true => rfl
  | false => rfl

/-- A pair of writes is done or left out. -/
theorem ite_write₂ (on : Bool) (dst dst' : R) (v v' : BitVec size) (L : Lane size R) :
    (if on then (⟨Function.update (Function.update L.reg dst v) dst' v', L.flag⟩ : Lane size R)
      else L) = write on dst' v' (write on dst v L) := by
  cases on with
  | true => rfl
  | false => rw [write_false, write_false, if_neg Bool.false_ne_true]

section

variable (hw : Fits curr) (hl : l < curr.execWidth) (s : State size R)

include hw hl

theorem lane_exec_op (op : Op size R) :
    (exec mask (.op op curr) s).lane l =
      if On mask curr l (s.lane l) then (op.eval (s.lane l).reg (s.acc l)).apply (s.lane l)
      else s.lane l :=
  lane_op hw hl op

theorem lane_exec_SEL (dst : R) (src0 src1 : Src size R) :
    (exec mask (.SEL dst src0 src1 curr) s).lane l =
      write (curr.noMask || mask l) dst (bif s.flag l then src0.get (s.lane l).reg
        else src1.get (s.lane l).reg) (s.lane l) := by
  have hsel : (if s.flag l = true then src0 else src1).get (fun r => s.reg r l) =
      bif s.flag l then src0.get (s.lane l).reg else src1.get (s.lane l).reg := by
    cases s.flag l with
    | true => rfl
    | false => rfl
  refine Simd.Lane.ext (funext fun r => ?_) rfl
  show (exec mask (.SEL dst src0 src1 curr) s).reg r l = _
  simp only [exec, hw.suboffset, hw.quarter, Control.enabled, hl, Nat.zero_le, decide_true,
    Bool.true_and, Nat.sub_zero, Nat.mul_zero, Nat.zero_add, Bool.not_false, Bool.true_or,
    Bool.and_true]
  rw [hsel]
  by_cases hon : (curr.noMask || mask l) = true
  · rw [if_pos hon, hon]
    rfl
  · rw [if_neg hon, Bool.eq_false_of_not_eq_true hon, write_false]
    rfl

theorem lane_setFlag (bits : Bool) :
    (exec mask (.MOVflag bits) s).lane l = ⟨(s.lane l).reg, bits⟩ := by
  have hlt : l < 16 := by
    obtain h | h := hw.execWidth
    · omega
    · omega
  refine Simd.Lane.ext rfl ?_
  simp [exec, State.lane, hlt]

/-- Operations through the accumulator, on both halves of the lanes. -/
theorem lane_run_halves (ops : List (Op size R)) (f : Lane size R → Lane size R)
    (hflag : ∀ op ∈ ops, ∀ r acc, (op.eval r acc).flag = none)
    (hf : ∀ L acc, (ops.foldl (blockStep Op.eval) (L, acc)).1 = f L)
    (hkeep : ∀ L, (f L).flag = L.flag) :
    (run mask ((halves curr fun half => ops.map fun op => (op, half)).map fun i => .op i.1 i.2)
      s).lane l = if On mask curr l (s.lane l) then f (s.lane l) else s.lane l := by
  rw [run_ops]
  refine lane_halves (fun c s l => ?_) hkeep hw hl
  rw [lane_block hflag, hf]

end

section

variable (hw : Fits curr) (hl : l < curr.execWidth) (hp : curr.predicated = false)
  (hon : (curr.noMask || mask l) = true)

include hw hl hp hon

theorem lane_emit_step (m : Mode) (step : Step size R) (s : State size R) :
    (run mask (step.emit (m.control curr)) s).lane l =
      laneStep (m.unmasked (mask l)) (m.on (mask l) (s.lane l).flag)
        (s.lane l) step := by
  have hw' := fits_control hw m
  have hl' : l < (m.control curr).execWidth := (execWidth_control m curr).symm ▸ hl
  have hon' := on_control hp hon m (s.lane l)
  cases step with
  | alu1 f dst src =>
    rw [Step.emit, run_cons, run_nil, lane_exec_op hw' hl', hon']
    exact ite_toReg _ _ _ _
  | alu2 f dst src0 src1 =>
    rw [Step.emit, run_cons, run_nil, lane_exec_op hw' hl', hon']
    exact ite_toReg _ _ _ _
  | CMP cond signed src0 src1 =>
    rw [Step.emit, run_cons, run_nil, lane_exec_op hw' hl', hon']
    exact ite_toFlag _ _ _
  | SEL dst src0 src1 =>
    rw [Step.emit, run_cons, run_nil, lane_exec_SEL hw' hl', unmasked_control hon]
    rfl
  | setFlag bits =>
    rw [Step.emit, run_cons, run_nil]
    exact lane_setFlag hw' hl' s bits
  | addWithCarry dest src0 src1 =>
    rw [laneStep, ← ite_write₂, ← hon']
    exact lane_run_halves hw' hl' s [.ADDC dest src0 src1, .MOVacc src1]
      (fun L => ⟨Function.update (Function.update L.reg dest (L.reg src0 + L.reg src1)) src1
        (BitVec.ofNat size (carry (L.reg src0) (L.reg src1))), L.flag⟩)
      (by simp [Op.eval, Effect.toReg, Effect.toRegAcc]) (fun _ _ => rfl) fun _ => rfl
  | subWithBorrow dest src0 src1 =>
    rw [laneStep, ← ite_write₂, ← hon']
    exact lane_run_halves hw' hl' s [.SUBB dest src0 src1, .MOVacc src1]
      (fun L => ⟨Function.update (Function.update L.reg dest (L.reg src0 - L.reg src1)) src1
        (BitVec.ofNat size (borrow (L.reg src0) (L.reg src1))), L.flag⟩)
      (by simp [Op.eval, Effect.toReg, Effect.toRegAcc]) (fun _ _ => rfl) fun _ => rfl

theorem lane_emit_steps (m : Mode) (steps : List (Step size R)) (s : State size R) :
    (run mask (steps.flatMap (Step.emit (m.control curr))) s).lane l =
      laneSteps (mask l) m steps (s.lane l) := by
  induction steps generalizing s with
  | nil => rfl
  | cons step steps ih =>
    rw [List.flatMap_cons, run_append, ih, lane_emit_step hw hl hp hon]
    rfl

/-- An executed lane does the steps one after the other. -/
theorem lane_run (code : List (Item size R)) (s : State size R) :
    (run mask (emit curr code) s).lane l = laneRun (mask l) code (s.lane l) := by
  induction code generalizing s with
  | nil => rfl
  | cons i code ih =>
    rw [emit, List.flatMap_cons, run_append, laneRun_cons, ← emit, ih]
    congr 1
    cases i with
    | under m steps => exact lane_emit_steps hw hl hp hon m steps s

end

end

/-! ### Longs -/

/-- The two dwords of a long, or a temporary. -/
inductive Reg (τ : Type*) where
  | top (long : ℕ)
  | bottom (long : ℕ)
  | tmp (t : τ)
  deriving DecidableEq

variable {τ : Type*}

instance : Coe τ (Reg τ) := ⟨.tmp⟩

instance : Coe (Reg τ) (Src 32 (Reg τ)) := ⟨.reg⟩

instance : Coe (BitVec 32) (Src 32 (Reg τ)) := ⟨.imm⟩

@[simp] def loadTopHalf (dest : Reg τ) (src : ℕ) : Step 32 (Reg τ) :=
  .alu1 .MOV dest (.reg (.top src))

@[simp] def loadBottomHalf (dest : Reg τ) (src : ℕ) : Step 32 (Reg τ) :=
  .alu1 .MOV dest (.reg (.bottom src))

@[simp] def storeTopHalf (dest : ℕ) (src : Reg τ) : Step 32 (Reg τ) :=
  .alu1 .MOV (.top dest) (.reg src)

@[simp] def storeBottomHalf (dest : ℕ) (src : Reg τ) : Step 32 (Reg τ) :=
  .alu1 .MOV (.bottom dest) (.reg src)

/-- The long in a lane. -/
def long (L : Lane 32 (Reg τ)) (n : ℕ) : BitVec 64 := L.reg (.top n) ++ L.reg (.bottom n)

theorem toNat_carry (v w : BitVec 32) :
    (BitVec.ofNat 32 (carry v w)).toNat = (v.toNat + w.toNat) / 2 ^ 32 := by
  have := v.isLt
  have := w.isLt
  rw [BitVec.toNat_ofNat, carry, Nat.mod_eq_of_lt]
  omega

theorem ofNat_borrow (v w : BitVec 32) :
    BitVec.ofNat 32 (borrow v w) = if v.toNat < w.toNat then 1 else 0 := by
  rw [borrow]
  split
  · rfl
  · rfl

theorem toNat_borrow (v w : BitVec 32) :
    (BitVec.ofNat 32 (borrow v w)).toNat = if v.toNat < w.toNat then 1 else 0 := by
  rw [ofNat_borrow]
  split
  · rfl
  · rfl

theorem toNat_sub (v w : BitVec 32) :
    (v - w).toNat + w.toNat = v.toNat + 2 ^ 32 * (if v.toNat < w.toNat then 1 else 0) := by
  have := v.isLt
  have := w.isLt
  rw [BitVec.toNat_sub]
  split
  · omega
  · omega

/-- A dword is halved and gets its top bit from the dword above. -/
theorem toNat_halve (low high : BitVec 32) :
    (low >>> 1 ||| high <<< 31).toNat = high.toNat % 2 * 2 ^ 31 + low.toNat / 2 := by
  have hlow : low.toNat / 2 < 2 ^ 31 := by
    have := low.isLt
    omega
  have hshift : (high <<< 31).toNat = (high.toNat % 2) <<< 31 := by
    rw [BitVec.toNat_shiftLeft, Nat.shiftLeft_eq, Nat.shiftLeft_eq]
    omega
  rw [BitVec.toNat_or, hshift, BitVec.toNat_ushiftRight, Nat.shiftRight_eq_div_pow, Nat.pow_one,
    Nat.or_comm, ← Nat.shiftLeft_add_eq_or_of_lt hlow, Nat.shiftLeft_eq]

/-! ### Signs -/

def I64Neg (high low tmp : Reg τ) : List (Step 32 (Reg τ)) :=
  [.alu1 .NOT high high, .alu1 .NOT low low, .alu1 .MOV tmp (.imm 1), .addWithCarry low low tmp,
    .alu2 .ADD high high tmp]

def I64ABS (sign high low tmp : Reg τ) : List (Item 32 (Reg τ)) :=
  [.under .curr [.alu2 .SHR sign high (.imm 31)],
    .under .all [.CMP .NZ false sign (.imm 0)],
    .under .flagged (I64Neg high low tmp)]

theorem shr_ne_zero (v u : BitVec 32) : (v >>> 31 != 0) = (v ++ u).msb := by
  rw [SplitWord.msb_append _ _ (by decide), BitVec.msb_eq_decide, Bool.eq_iff_iff, bne_iff_ne,
    decide_eq_true_iff, Ne, ← BitVec.toNat_inj, BitVec.toNat_ushiftRight,
    Nat.shiftRight_eq_div_pow]
  have hzero : (0 : BitVec 32).toNat = 0 := rfl
  omega

/-- `I64Neg` adds 1 to the complement. -/
theorem neg_append (v u : BitVec 32) :
    -(v ++ u) = (~~~ v + BitVec.ofNat 32 (carry (~~~ u) 1)) ++ (~~~ u + 1) := by
  have hone : (1 : BitVec (32 + 32)) = (0 : BitVec 32) ++ (1 : BitVec 32) := rfl
  rw [BitVec.neg_eq_not_add, BitVec.not_append]
  refine Eq.trans (congrArg _ hone) ?_
  rw [SplitWord.append_add_append, add_zero]
  rfl

/-- A number of two dwords. -/
def pair (L : Lane 32 (Reg τ)) (high low : Reg τ) : BitVec 64 := L.reg high ++ L.reg low

section

variable [DecidableEq τ] {sign high low tmp : Reg τ} (active : Bool) (L : Lane 32 (Reg τ))

theorem pair_I64Neg (hlow : low ≠ high) (htmp : tmp ≠ high) (htmp' : tmp ≠ low) (m : Mode) :
    pair (laneSteps active m (I64Neg high low tmp) L) high low =
      bif m.on active L.flag then -pair L high low else pair L high low := by
  simp only [I64Neg, laneSteps_cons, laneSteps_nil, laneStep, flag_write]
  cases m.on active L.flag with
  | true =>
    refine Eq.trans ?_ (neg_append (L.reg high) (L.reg low)).symm
    simp [pair, hlow, hlow.symm, htmp, htmp.symm, htmp', htmp'.symm]
  | false => simp [pair, hlow, hlow.symm, htmp, htmp.symm, htmp', htmp'.symm]

/-- `I64Neg` leaves everything else alone. -/
theorem reg_I64Neg (m : Mode) {r : Reg τ} (hhigh : r ≠ high) (hlow : r ≠ low) (htmp : r ≠ tmp) :
    (laneSteps active m (I64Neg high low tmp) L).reg r = L.reg r := by
  simp [I64Neg, hhigh, hlow, htmp]

theorem pair_I64ABS (hlow : low ≠ high) (htmp : tmp ≠ high) (htmp' : tmp ≠ low)
    (hhigh : high ≠ sign) (hlow' : low ≠ sign) :
    pair (laneRun active (I64ABS sign high low tmp) L) high low = (pair L high low).abs := by
  have hmsb : (L.reg high >>> 31 != 0) = (pair L high low).msb := shr_ne_zero _ _
  rw [I64ABS, laneRun_cons, laneRun_cons, laneRun_cons, laneRun_nil, laneItem,
    pair_I64Neg active _ hlow htmp htmp', BitVec.abs, ← hmsb]
  simp [Cond.eval, pair, hhigh, hlow', cond_eq_ite]

theorem sign_I64ABS (hhigh : sign ≠ high) (hlow : sign ≠ low) (htmp : sign ≠ tmp) :
    (laneRun active (I64ABS sign high low tmp) L).reg sign = L.reg high >>> 31 := by
  rw [I64ABS, laneRun_cons, laneRun_cons, laneRun_cons, laneRun_nil, laneItem,
    reg_I64Neg active _ _ hhigh hlow htmp]
  simp

theorem reg_I64ABS {r : Reg τ} (hsign : r ≠ sign) (hhigh : r ≠ high) (hlow : r ≠ low)
    (htmp : r ≠ tmp) : (laneRun active (I64ABS sign high low tmp) L).reg r = L.reg r := by
  rw [I64ABS, laneRun_cons, laneRun_cons, laneRun_cons, laneRun_nil, laneItem,
    reg_I64Neg active _ _ hhigh hlow htmp]
  simp [hsign]

end

end LongCode

end Backend
