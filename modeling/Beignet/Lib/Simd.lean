/-
A machine that runs one instruction on many lanes.

An instruction is an operation with a `Control`: how many channels it has, which lane its
operands start at, and which group of eight channels gives it its bits of the execution mask
and of the flag.  The operation says what happens in one channel: an `Effect` on one register,
on the accumulator of the channel and on the flag.  A disabled channel keeps everything.

* `lane_exec` — what one instruction does in one lane;
* `lane_exec_aligned` — the same when operands and channels start at the same lane;
* `lane_op` — the same for an instruction on the lanes of a thread;
* `lane_block` — operations that work through the accumulator;
* `lane_halves` — code for each half of the lanes;
* `view_run`, `reg_run_relabel` — code for some of the registers of a larger machine.
-/
import Mathlib

namespace Simd

/-- The execution controls of an instruction. -/
structure Control where
  execWidth : ℕ
  /-- the group of eight channels whose mask and flag bits count -/
  quarter : ℕ
  /-- the lane that the operands start at -/
  suboffset : ℕ
  noMask : Bool
  predicated : Bool

/-- The channel is not disabled by the width, the mask or the flag. -/
def Control.enabled (c : Control) (mask flag : ℕ → Bool) (channel : ℕ) : Bool :=
  channel < c.execWidth && (c.noMask || mask (8 * c.quarter + channel)) &&
    (!c.predicated || flag (8 * c.quarter + channel))

variable {α R V : Type*} [DecidableEq R]

/-- What an operation does in one channel. -/
structure Effect (R V : Type*) where
  reg : Option (R × V)
  acc : Option ℕ
  flag : Option Bool

namespace Effect

/-- Write a register. -/
def toReg (dst : R) (v : V) : Effect R V := ⟨some (dst, v), none, none⟩

/-- Write a register and the accumulator. -/
def toRegAcc (dst : R) (v : V) (acc : ℕ) : Effect R V := ⟨some (dst, v), some acc, none⟩

def toAcc (acc : ℕ) : Effect R V := ⟨none, some acc, none⟩

def toFlag (flag : Bool) : Effect R V := ⟨none, none, some flag⟩

/-- The registers of a lane after the effect. -/
def regs (e : Effect R V) (old : R → V) : R → V :=
  match e.reg with
  | some (dst, v) => Function.update old dst v
  | none => old

end Effect

/-- The registers and the flag bit of one lane. -/
@[ext] structure Lane (R V : Type*) where
  reg : R → V
  flag : Bool

def Effect.apply (e : Effect R V) (L : Lane R V) : Lane R V :=
  ⟨e.regs L.reg, e.flag.getD L.flag⟩

/-- Registers, accumulators and flags of all lanes. -/
structure State (R V : Type*) where
  reg : R → ℕ → V
  acc : ℕ → ℕ
  flag : ℕ → Bool

def State.lane (s : State R V) (l : ℕ) : Lane R V := ⟨fun r => s.reg r l, s.flag l⟩

section Exec

variable (eval : α → (R → V) → ℕ → Effect R V) (mask : ℕ → Bool)

/-- The effect of an instruction in a channel. -/
def channelEffect (i : α × Control) (s : State R V) (channel : ℕ) : Effect R V :=
  eval i.1 (fun r => s.reg r (i.2.suboffset + channel)) (s.acc channel)

/-- One instruction. -/
def exec (i : α × Control) (s : State R V) : State R V where
  reg r lane :=
    if i.2.suboffset ≤ lane && i.2.enabled mask s.flag (lane - i.2.suboffset) then
      (channelEffect eval i s (lane - i.2.suboffset)).regs (fun r' => s.reg r' lane) r
    else s.reg r lane
  acc channel :=
    if i.2.enabled mask s.flag channel then
      (channelEffect eval i s channel).acc.getD (s.acc channel)
    else s.acc channel
  flag lane :=
    if 8 * i.2.quarter ≤ lane && i.2.enabled mask s.flag (lane - 8 * i.2.quarter) then
      (channelEffect eval i s (lane - 8 * i.2.quarter)).flag.getD (s.flag lane)
    else s.flag lane

/-- A list of instructions. -/
def run (code : List (α × Control)) (s : State R V) : State R V :=
  code.foldl (fun s i => exec eval mask i s) s

@[simp] theorem run_nil (s : State R V) : run eval mask [] s = s := rfl

@[simp] theorem run_cons (i : α × Control) (code : List (α × Control)) (s : State R V) :
    run eval mask (i :: code) s = run eval mask code (exec eval mask i s) := rfl

@[simp] theorem run_append (code1 code2 : List (α × Control)) (s : State R V) :
    run eval mask (code1 ++ code2) s = run eval mask code2 (run eval mask code1 s) := by
  simp [run]

variable {eval mask}

theorem flag_exec {i : α × Control} {s : State R V}
    (hflag : ∀ channel, (channelEffect eval i s channel).flag = none) :
    (exec eval mask i s).flag = s.flag := by
  funext l
  simp [exec, hflag]

theorem acc_exec {i : α × Control} {s : State R V} {channel : ℕ}
    (hon : i.2.enabled mask s.flag channel = true) :
    (exec eval mask i s).acc channel =
      (channelEffect eval i s channel).acc.getD (s.acc channel) := by
  simp [exec, hon]

/-- An operation that leaves the flag alone, in one lane. -/
theorem lane_exec {i : α × Control} {s : State R V} {l : ℕ}
    (hflag : ∀ channel, (channelEffect eval i s channel).flag = none) :
    (exec eval mask i s).lane l =
      if i.2.suboffset ≤ l && i.2.enabled mask s.flag (l - i.2.suboffset) then
        (channelEffect eval i s (l - i.2.suboffset)).apply (s.lane l)
      else s.lane l := by
  ext
  · simp only [State.lane, exec]
    split
    · rfl
    · rfl
  · show (exec eval mask i s).flag l = _
    rw [flag_exec hflag]
    split
    · simp [Effect.apply, hflag, State.lane]
    · rfl

/-- One instruction in one lane, when mask and flag bits are those of the lane. -/
theorem lane_exec_aligned {i : α × Control} {s : State R V} {l : ℕ}
    (halign : 8 * i.2.quarter = i.2.suboffset) :
    (exec eval mask i s).lane l =
      if i.2.suboffset ≤ l && i.2.enabled mask s.flag (l - i.2.suboffset) then
        (channelEffect eval i s (l - i.2.suboffset)).apply (s.lane l)
      else s.lane l := by
  ext
  · simp only [State.lane, exec]
    split
    · rfl
    · rfl
  · simp only [State.lane, exec, halign]
    split
    · rfl
    · rfl

omit [DecidableEq R] in
/-- The registers that an effect in a lane starts from. -/
theorem channelEffect_lane {i : α × Control} {s : State R V} {l : ℕ}
    (h : i.2.suboffset ≤ l) :
    channelEffect eval i s (l - i.2.suboffset) =
      eval i.1 (s.lane l).reg (s.acc (l - i.2.suboffset)) := by
  simp [channelEffect, State.lane, Nat.add_sub_cancel' h]

/-- The controls of an instruction on all lanes of a thread. -/
structure Whole (c : Control) : Prop where
  execWidth : c.execWidth = 8 ∨ c.execWidth = 16
  quarter : c.quarter = 0
  suboffset : c.suboffset = 0

theorem Whole.withMask {c : Control} (hw : Whole c) (noMask predicated : Bool) :
    Whole { c with noMask := noMask, predicated := predicated } :=
  ⟨hw.execWidth, hw.quarter, hw.suboffset⟩

/-- The same, or on some of the first eight lanes. -/
structure Fits (c : Control) : Prop where
  execWidth : c.execWidth ≤ 8 ∨ c.execWidth = 16
  quarter : c.quarter = 0
  suboffset : c.suboffset = 0

theorem Whole.fits {c : Control} (hw : Whole c) : Fits c :=
  ⟨hw.execWidth.imp_left Nat.le_of_eq, hw.quarter, hw.suboffset⟩

theorem Fits.withMask {c : Control} (hw : Fits c) (noMask predicated : Bool) :
    Fits { c with noMask := noMask, predicated := predicated } :=
  ⟨hw.execWidth, hw.quarter, hw.suboffset⟩

/-- The lane is enabled. -/
def On (mask : ℕ → Bool) (c : Control) (l : ℕ) (L : Lane R V) : Bool :=
  (c.noMask || mask l) && (!c.predicated || L.flag)

/-- One instruction whose operands start at the first lane. -/
theorem lane_op {c : Control} {s : State R V} {l : ℕ} (hw : Fits c) (hl : l < c.execWidth)
    (op : α) :
    (exec eval mask (op, c) s).lane l =
      if On mask c l (s.lane l) then (eval op (s.lane l).reg (s.acc l)).apply (s.lane l)
      else s.lane l := by
  rw [lane_exec_aligned (by simp [hw.quarter, hw.suboffset]),
    channelEffect_lane (by simp [hw.suboffset])]
  simp only [hw.suboffset, hw.quarter, Control.enabled, On, hl, Nat.zero_le, decide_true,
    Bool.true_and, Nat.sub_zero, Nat.mul_zero, Nat.zero_add]
  rfl

/-! ### Through the accumulator, one half after the other -/

/-- One operation in a lane with its accumulator. -/
def blockStep (eval : α → (R → V) → ℕ → Effect R V) (x : Lane R V × ℕ) (op : α) :
    Lane R V × ℕ :=
  ((eval op x.1.reg x.2).apply x.1, (eval op x.1.reg x.2).acc.getD x.2)

/-- Operations under the same controls that leave the flag alone: an enabled lane does them one
after the other with its own accumulator. -/
theorem lane_block {c : Control} {ops : List α}
    (hflag : ∀ op ∈ ops, ∀ r acc, (eval op r acc).flag = none) (s : State R V) (l : ℕ) :
    (run eval mask (ops.map fun op => (op, c)) s).lane l =
      if c.suboffset ≤ l && c.enabled mask s.flag (l - c.suboffset) then
        (ops.foldl (blockStep eval) (s.lane l, s.acc (l - c.suboffset))).1
      else s.lane l := by
  induction ops generalizing s with
  | nil => exact (ite_self _).symm
  | cons op ops ih =>
    have heff : ∀ channel, (channelEffect eval (op, c) s channel).flag = none :=
      fun channel => hflag op List.mem_cons_self _ _
    rw [List.map_cons, run_cons, ih fun op hop => hflag op (List.mem_cons_of_mem _ hop),
      lane_exec heff, flag_exec heff]
    by_cases hle : c.suboffset ≤ l
    · by_cases hon : c.enabled mask s.flag (l - c.suboffset) = true
      · simp only [hle, hon, decide_true, Bool.and_self, if_true]
        rw [acc_exec hon, channelEffect_lane hle]
        rfl
      · simp [hon]
    · simp [hle]

/-- Code for eight lanes, and again for the second eight of sixteen. -/
def halves (curr : Control) (code : Control → List (α × Control)) : List (α × Control) :=
  code { curr with execWidth := 8 } ++
    if curr.execWidth = 16 then
      code { curr with execWidth := 8, quarter := 1, suboffset := 8 }
    else []

theorem lane_halves {curr : Control} {code : Control → List (α × Control)}
    {f : Lane R V → Lane R V} {s : State R V} {l : ℕ}
    (hlane : ∀ c s l, (run eval mask (code c) s).lane l =
      if c.suboffset ≤ l && c.enabled mask s.flag (l - c.suboffset) then f (s.lane l)
      else s.lane l)
    (hf : ∀ L, (f L).flag = L.flag) (hw : Fits curr) (hl : l < curr.execWidth) :
    (run eval mask (halves curr code) s).lane l =
      if On mask curr l (s.lane l) then f (s.lane l) else s.lane l := by
  obtain h8 | h16 := hw.execWidth
  · have hne : ¬ curr.execWidth = 16 := by omega
    have hlt : l < 8 := by omega
    simp only [halves, hne, if_false, List.append_nil, hlane]
    simp [hw.suboffset, hw.quarter, Control.enabled, On, hlt, State.lane]
  · rw [h16] at hl
    simp only [halves, h16, if_true, run_append, hlane]
    -- the first half leaves the flags alone
    have hflag : (run eval mask (code { curr with execWidth := 8 }) s).flag = s.flag := by
      funext k
      have hk := congrArg Lane.flag (hlane { curr with execWidth := 8 } s k)
      refine hk.trans ?_
      split
      · exact hf _
      · rfl
    rw [hflag]
    -- each half leaves the lanes of the other one alone
    by_cases hlow : l < 8
    · have : ¬ 8 ≤ l := by omega
      simp [hw.suboffset, hw.quarter, Control.enabled, On, hlow, State.lane, this]
    · have hle : 8 ≤ l := by omega
      have hlt : l - 8 < 8 := by omega
      simp [hw.suboffset, hw.quarter, Control.enabled, On, hlow, hle, hlt, State.lane]

end Exec

/-! ### More registers -/

section Relabel

variable {R' : Type*} [DecidableEq R'] {f : R → R'} {eval : α → (R → V) → ℕ → Effect R V}
  {mask : ℕ → Bool}

/-- The operations on the registers `f r` of a machine that has others, too. -/
def relabel (f : R → R') (eval : α → (R → V) → ℕ → Effect R V) :
    α → (R' → V) → ℕ → Effect R' V :=
  fun op r acc =>
    let e := eval op (fun r' => r (f r')) acc
    ⟨e.reg.map fun w => (f w.1, w.2), e.acc, e.flag⟩

/-- What the smaller machine sees. -/
def State.view (f : R → R') (s : State R' V) : State R V := ⟨fun r => s.reg (f r), s.acc, s.flag⟩

def Lane.view (f : R → R') (L : Lane R' V) : Lane R V := ⟨fun r => L.reg (f r), L.flag⟩

omit [DecidableEq R] [DecidableEq R'] in
theorem lane_view (s : State R' V) (l : ℕ) : (s.view f).lane l = (s.lane l).view f := rfl

theorem regs_relabel (hf : Function.Injective f) (op : α) (r : R' → V) (acc : ℕ) (old : R' → V)
    (r' : R) : (relabel f eval op r acc).regs old (f r') =
      (eval op (fun r' => r (f r')) acc).regs (fun r' => old (f r')) r' := by
  rw [Effect.regs, Effect.regs, relabel]
  cases (eval op (fun r' => r (f r')) acc).reg with
  | none => rfl
  | some w =>
    show Function.update old (f w.1) w.2 (f r') = Function.update (fun r' => old (f r')) w.1 w.2 r'
    by_cases h : r' = w.1
    · rw [h, Function.update_self, Function.update_self]
    · rw [Function.update_of_ne h, Function.update_of_ne fun hc => h (hf hc)]

omit [DecidableEq R] in
theorem regs_relabel_of_ne {r' : R'} (hr : ∀ r, f r ≠ r') (op : α) (r : R' → V) (acc : ℕ)
    (old : R' → V) : (relabel f eval op r acc).regs old r' = old r' := by
  rw [Effect.regs, relabel]
  cases (eval op (fun r' => r (f r')) acc).reg with
  | none => rfl
  | some w => exact Function.update_of_ne (hr w.1).symm _ _

theorem view_exec (hf : Function.Injective f) (i : α × Control) (s : State R' V) :
    (exec (relabel f eval) mask i s).view f = exec eval mask i (s.view f) := by
  simp only [State.view, exec, State.mk.injEq]
  refine ⟨?_, rfl, rfl⟩
  funext r lane
  simp only [channelEffect]
  rw [regs_relabel hf]
  rfl

/-- On its registers the relabelled code does what the code does. -/
theorem view_run (hf : Function.Injective f) (code : List (α × Control)) (s : State R' V) :
    (run (relabel f eval) mask code s).view f = run eval mask code (s.view f) := by
  induction code generalizing s with
  | nil => rfl
  | cons i code ih => rw [run_cons, run_cons, ih, view_exec hf]

omit [DecidableEq R] in
/-- The other registers keep what they hold. -/
theorem reg_run_relabel {r' : R'} (hr : ∀ r, f r ≠ r') (code : List (α × Control))
    (s : State R' V) : (run (relabel f eval) mask code s).reg r' = s.reg r' := by
  induction code generalizing s with
  | nil => rfl
  | cons i code ih =>
    rw [run_cons, ih]
    funext lane
    simp only [exec, channelEffect]
    rw [regs_relabel_of_ne hr, ite_self]

end Relabel

end Simd
