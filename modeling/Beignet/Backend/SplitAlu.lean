/-
Instructions of 16 lanes that go as two of 8: `alu1` and `alu2` (`gen_encoder.cpp`).

An opcode is any function of the operands of a lane, to the bytes of its result and to its flag.
A register is bytes; `a0` is the content of the address registers.

* `halved_iff` — when the second half of a region is where `Qn` puts it;
* `lanes_whole` — sixteen lanes are eight and eight;
* **`split_iff`** — two instructions do what one does exactly without a conditional modifier, for a
  destination with a stride and sources in rows of one stride.
-/
import Beignet.Lib.Writes

namespace Backend

namespace SplitAlu

/-! ### Operands -/

inductive GenType where
  | UD | D | UW | W | UB | B | UL | L | DF | F | HF
  deriving DecidableEq

def typeSize : GenType → ℕ
  | .DF | .UL | .L => 8
  | .UD | .D | .F => 4
  | .UW | .W | .HF => 2
  | .UB | .B => 1

inductive File where
  | ARCHITECTURE_REGISTER_FILE | GENERAL_REGISTER_FILE | IMMEDIATE_VALUE
  deriving DecidableEq

inductive HorizontalStride where
  | S0 | S1 | S2 | S4
  deriving DecidableEq

def stride : HorizontalStride → ℕ
  | .S0 => 0
  | .S1 => 1
  | .S2 => 2
  | .S4 => 4

inductive Width where
  | W1 | W2 | W4 | W8 | W16
  deriving DecidableEq

def Width.lanes : Width → ℕ
  | W1 => 1
  | W2 => 2
  | W4 => 4
  | W8 => 8
  | W16 => 16

/-- The vertical stride counts elements. -/
structure GenRegister where
  file : File
  type : GenType
  nr : ℕ
  subnr : ℕ
  vstride : ℕ
  width : Width
  hstride : HorizontalStride
  /-- `GEN_ADDRESS_REGISTER_INDIRECT_REGISTER` -/
  indirect : Bool
  a0_subnr : ℕ
  addr_imm : ℕ
  /-- the bytes of an immediate, at most 8 elements -/
  value : ℕ → ℕ → BitVec 8

/-- `QnPhysical` -/
def Qn (reg : GenRegister) (quarter : ℕ) : GenRegister :=
  if reg.hstride = .S0 then reg
  else
    let grfOffset := reg.nr * 32 + reg.subnr
    let nextOffset := grfOffset + 8 * quarter * stride reg.hstride * typeSize reg.type
    { reg with nr := nextOffset / 32, subnr := nextOffset % 32 }

def position (reg : GenRegister) : ℕ := reg.nr * 32 + reg.subnr

/-- Where a source begins. -/
def base (a0 : ℕ → ℕ) (reg : GenRegister) : ℕ :=
  if reg.indirect then a0 reg.a0_subnr + reg.addr_imm else position reg

/-- The element of a lane in its region. -/
def element (reg : GenRegister) (lane : ℕ) : ℕ :=
  lane / reg.width.lanes * reg.vstride + lane % reg.width.lanes * stride reg.hstride

def srcAddr (a0 : ℕ → ℕ) (reg : GenRegister) (lane : ℕ) : ℕ :=
  base a0 reg + element reg lane * typeSize reg.type

/-- `setDst` replaces a stride of 0. -/
def dstStride (reg : GenRegister) : ℕ :=
  if reg.hstride = .S0 then
    match reg.type with
    | .UB | .B => 4
    | .UW | .W => 2
    | _ => 1
  else stride reg.hstride

/-- `setDst` sets the fields of a direct address. -/
def dstAddr (reg : GenRegister) (lane : ℕ) : ℕ :=
  position reg + lane * (dstStride reg * typeSize reg.type)

/-! ### The encoder -/

def isVectorOfBytes (reg : GenRegister) : Bool :=
  reg.hstride ≠ .S0 && (reg.type = .UB || reg.type = .B)

def isVectorOfLongs (reg : GenRegister) : Bool :=
  reg.hstride ≠ .S0 && (reg.type = .UL || reg.type = .L)

def isCrossMoreThan2 (reg : GenRegister) : Bool :=
  reg.hstride ≠ .S0 && 32 * 2 < stride reg.hstride * typeSize reg.type * 16

/-- The registers that sixteen lanes reach over. -/
def span (reg : GenRegister) : ℕ :=
  let step := stride reg.hstride * typeSize reg.type
  let spans := reg.subnr / step * step + step * 16
  spans / 32 + if spans % 32 = 0 then 0 else 1

def srcSpan (src : GenRegister) : ℕ :=
  let step := stride src.hstride * typeSize src.type
  let spans := src.subnr / step * step + step * 16
  step * 16 / 32 + if spans % 32 = 0 then 0 else 1

def isSrcDstDiffSpan (dst src : GenRegister) : Bool :=
  if src.hstride = .S0 then false
  else if span dst < 2 then false
  else if srcSpan src = span dst then false
  else if (dst.type = .UD || dst.type = .D) && (src.type = .UW || src.type = .W) &&
      span dst = 2 && srcSpan src = 1 && dst.subnr = 0 && src.subnr = 0 then false
  else true

/-- At a width of 16. -/
def needToSplitAlu1 (dst src : GenRegister) : Bool :=
  if isVectorOfLongs dst then true
  else if isCrossMoreThan2 dst then true
  else if src.hstride = .S0 then false
  else if isCrossMoreThan2 src then true
  else if isVectorOfLongs src then true
  else if isSrcDstDiffSpan dst src then true
  else if isVectorOfBytes dst &&
      ((isVectorOfBytes src && src.hstride = dst.hstride) || src.hstride = .S0) then false
  else if isVectorOfBytes dst then true
  else isVectorOfBytes src

def needToSplitAlu2 (dst src0 src1 : GenRegister) : Bool :=
  if isVectorOfLongs dst then true
  else if isCrossMoreThan2 dst then true
  else if src0.hstride = .S0 && src1.hstride = .S0 then false
  else if isVectorOfLongs src0 then true
  else if isVectorOfLongs src1 then true
  else if isCrossMoreThan2 src0 then true
  else if isCrossMoreThan2 src1 then true
  else if isSrcDstDiffSpan dst src0 then true
  else if isSrcDstDiffSpan dst src1 then true
  else if isVectorOfBytes dst &&
      ((isVectorOfBytes src0 && src0.hstride = dst.hstride) || src0.hstride = .S0) &&
      ((isVectorOfBytes src1 && src1.hstride = dst.hstride) || src1.hstride = .S0) then false
  else if isVectorOfBytes dst then true
  else if isVectorOfBytes src0 then true
  else isVectorOfBytes src1

/-- What differs between the instructions; `setHeader` sets the other fields alike. -/
structure Insn where
  execution_size : ℕ
  quarter_control : ℕ
  /-- `destreg_or_condmod` -/
  condmod : ℕ
  dst : GenRegister
  srcs : List GenRegister

/-- One instruction, with its modifier. -/
def whole (dst : GenRegister) (srcs : List GenRegister) (condition : ℕ) : Insn :=
  ⟨16, 0, if condition ≠ 0 then condition else 0, dst, srcs⟩

/-- Two quarters. -/
def quarters (dst : GenRegister) (srcs : List GenRegister) : List Insn :=
  [⟨8, 0, 0, dst, srcs⟩, ⟨8, 1, 0, Qn dst 1, srcs.map fun src => Qn src 1⟩]

def alu1 (dst src : GenRegister) (condition : ℕ) : List Insn :=
  if needToSplitAlu1 dst src = false then [whole dst [src] condition] else quarters dst [src]

def alu2 (dst src0 src1 : GenRegister) (condition : ℕ) : List Insn :=
  if needToSplitAlu2 dst src0 src1 = false then [whole dst [src0, src1] condition]
  else quarters dst [src0, src1]

/-! ### Execution -/

/-- The bytes of an operand in a lane. -/
abbrev Value := ℕ → BitVec 8

/-- An opcode with a modifier: the result and the flag of a lane. -/
structure Opcode where
  result : List Value → Value
  flag : List Value → Bool

/-- The bytes of the registers and the flags. -/
@[ext] structure State where
  regs : File × ℕ → BitVec 8
  flags : ℕ → Bool

section

variable (op : Opcode) (enabled : (ℕ → Bool) → ℕ → Bool) (a0 : ℕ → ℕ)

def read (s : State) (src : GenRegister) (lane : ℕ) : Value := fun k =>
  if k < typeSize src.type then
    if src.file = .IMMEDIATE_VALUE then src.value (lane % 8) k
    else s.regs (src.file, srcAddr a0 src lane + k)
  else 0

def laneWrites (i : Insn) (s : State) (lane : ℕ) : List ((File × ℕ) × BitVec 8) :=
  (List.range (typeSize i.dst.type)).map fun k =>
    ((i.dst.file, dstAddr i.dst lane + k),
      op.result (i.srcs.map fun src => read a0 s src lane) k)

/-- The lanes that the mask and the predicate enable. -/
def lanes (i : Insn) (s : State) : List ℕ :=
  (List.range i.execution_size).filter fun lane => enabled s.flags (8 * i.quarter_control + lane)

/-- All lanes read before one writes. -/
def exec (s : State) (i : Insn) : State where
  regs := Writes.write ((lanes enabled i s).flatMap (laneWrites op a0 i s)) s.regs
  flags := fun channel =>
    if i.condmod ≠ 0 ∧ 8 * i.quarter_control ≤ channel ∧
        channel - 8 * i.quarter_control ∈ lanes enabled i s then
      op.flag (i.srcs.map fun src => read a0 s src (channel - 8 * i.quarter_control))
    else s.flags channel

/-- The destination does not overlap a source, or is the same register. -/
def Apart (dst src : GenRegister) : Prop :=
  (src = dst ∧ src.indirect = false) ∨
    ∀ i < 16, ∀ j < 16, ∀ k < typeSize dst.type, ∀ l < typeSize src.type,
      (dst.file, dstAddr dst i + k) ≠ (src.file, srcAddr a0 src j + l)

/-- Two instructions that have the effect of one. -/
def SameEffect (insns : List Insn) (i : Insn) : Prop :=
  ∀ op enabled s, insns.foldl (exec op enabled a0) s = exec op enabled a0 s i

end

/-! ### Halves -/

/-- The second half of the lanes is where `Qn` puts it. -/
def Halved (a0 : ℕ → ℕ) (src : GenRegister) : Prop :=
  src.file = .IMMEDIATE_VALUE ∨
    ∀ lane < 8, srcAddr a0 (Qn src 1) lane = srcAddr a0 src (8 + lane)

/-- Rows of one stride, or of one element where the address is indirect. -/
def Regular (src : GenRegister) : Prop :=
  src.file = .IMMEDIATE_VALUE ∨
    if src.indirect then
      if src.width = .W16 then src.hstride = .S0 else src.vstride = 0
    else src.width = .W16 ∨ src.vstride = src.width.lanes * stride src.hstride

theorem typeSize_pos (t : GenType) : 0 < typeSize t := by
  cases t <;> decide

@[simp] theorem Qn_file (reg : GenRegister) : (Qn reg 1).file = reg.file := by
  rw [Qn]
  split <;> rfl

@[simp] theorem Qn_type (reg : GenRegister) : (Qn reg 1).type = reg.type := by
  rw [Qn]
  split <;> rfl

@[simp] theorem Qn_value (reg : GenRegister) : (Qn reg 1).value = reg.value := by
  rw [Qn]
  split <;> rfl

theorem element_Qn (reg : GenRegister) (lane : ℕ) : element (Qn reg 1) lane = element reg lane := by
  rw [Qn]
  split <;> rfl

theorem dstStride_Qn (reg : GenRegister) : dstStride (Qn reg 1) = dstStride reg := by
  rw [Qn]
  split <;> rfl

theorem position_Qn (reg : GenRegister) :
    position (Qn reg 1) = position reg + 8 * stride reg.hstride * typeSize reg.type := by
  rw [Qn]
  by_cases hscalar : reg.hstride = .S0
  · rw [if_pos hscalar, hscalar]
    simp [stride]
  · rw [if_neg hscalar]
    show (_ / 32) * 32 + _ % 32 = _
    rw [Nat.div_add_mod', Nat.mul_one]
    rfl

theorem base_Qn (a0 : ℕ → ℕ) (reg : GenRegister) :
    base a0 (Qn reg 1) = if reg.indirect then base a0 reg
      else base a0 reg + 8 * stride reg.hstride * typeSize reg.type := by
  have hfields : (Qn reg 1).indirect = reg.indirect ∧ (Qn reg 1).a0_subnr = reg.a0_subnr ∧
      (Qn reg 1).addr_imm = reg.addr_imm := by
    rw [Qn]
    split <;> exact ⟨rfl, rfl, rfl⟩
  rw [base, base, hfields.1, hfields.2.1, hfields.2.2, position_Qn]
  split <;> rfl

/-- A region goes on in its second half as it began. -/
theorem element_add (reg : GenRegister) {lane : ℕ} (h : lane < 8) :
    element reg (8 + lane) = element reg 8 + element reg lane := by
  have hrow : (8 + lane) / reg.width.lanes = 8 / reg.width.lanes + lane / reg.width.lanes ∧
      (8 + lane) % reg.width.lanes = 8 % reg.width.lanes + lane % reg.width.lanes := by
    cases reg.width <;> simp only [Width.lanes] <;> omega
  rw [element, element, element, hrow.1, hrow.2]
  ring

theorem element_zero (reg : GenRegister) : element reg 0 = 0 := by
  simp [element]

theorem halved_iff (a0 : ℕ → ℕ) (src : GenRegister) : Halved a0 src ↔ Regular src := by
  have hpos := typeSize_pos src.type
  have hbase : (∀ lane < 8, srcAddr a0 (Qn src 1) lane = srcAddr a0 src (8 + lane)) ↔
      base a0 (Qn src 1) = base a0 src + element src 8 * typeSize src.type := by
    constructor
    · intro h
      have h₀ := h 0 (by decide)
      rwa [srcAddr, srcAddr, element_Qn, element_zero, Nat.zero_mul, Nat.add_zero, Nat.add_zero]
        at h₀
    · intro h lane hlane
      rw [srcAddr, srcAddr, element_Qn, Qn_type, element_add src hlane, h]
      ring
  rw [Halved, Regular, hbase, base_Qn]
  refine or_congr_right ?_
  have hrow : element src 8 = if src.width = .W16 then 8 * stride src.hstride
      else 8 / src.width.lanes * src.vstride := by
    rw [element]
    cases src.width <;> simp [Width.lanes]
  have hstride : stride src.hstride = 0 ↔ src.hstride = .S0 := by
    cases src.hstride <;> simp [stride]
  split
  · -- the base does not move
    have hzero : base a0 src = base a0 src + element src 8 * typeSize src.type ↔
        element src 8 = 0 := by
      rw [left_eq_add, Nat.mul_eq_zero, or_iff_left hpos.ne']
    rw [hzero, hrow, ← hstride]
    split
    · omega
    · have hlanes : 0 < 8 / src.width.lanes := by
        cases hw : src.width <;> simp_all [Width.lanes]
      rw [Nat.mul_eq_zero, or_iff_right hlanes.ne']
  · have hmove : base a0 src + 8 * stride src.hstride * typeSize src.type =
        base a0 src + element src 8 * typeSize src.type ↔
          8 * stride src.hstride = element src 8 := by
      rw [Nat.add_left_cancel_iff, Nat.mul_left_inj hpos.ne']
    rw [hmove, hrow]
    split
    · next hw => simp [hw]
    · next hw =>
      rw [or_iff_right hw]
      cases hwidth : src.width with
      | W16 => exact absurd hwidth hw
      | _ =>
        simp only [Width.lanes]
        omega

/-! ### Quarters -/

/-- Where `Qn` finds the second half. -/
def Strided (dst : GenRegister) : Prop := dst.hstride ≠ .S0

theorem step_pos (dst : GenRegister) : typeSize dst.type ≤ dstStride dst * typeSize dst.type := by
  refine Nat.le_mul_of_pos_left _ ?_
  rw [dstStride]
  split
  · split <;> decide
  · next h =>
    revert h
    cases dst.hstride <;> simp [stride]

theorem dstAddr_Qn {dst : GenRegister} (h : Strided dst) (lane : ℕ) :
    dstAddr (Qn dst 1) lane = dstAddr dst (8 + lane) := by
  have hstride : dstStride dst = stride dst.hstride := if_neg h
  rw [dstAddr, dstAddr, position_Qn, dstStride_Qn, Qn_type, hstride]
  ring

theorem Qn_of_not_strided {dst : GenRegister} (h : ¬ Strided dst) : Qn dst 1 = dst :=
  if_pos (not_not.mp h)

/-- The lanes of a destination do not overlap. -/
theorem dstAddr_lt (dst : GenRegister) {i j k : ℕ} (hij : i < j)
    (hk : k < typeSize dst.type) : dstAddr dst i + k < dstAddr dst j := by
  have hstep := step_pos dst
  rw [dstAddr, dstAddr, Nat.add_assoc]
  refine Nat.add_lt_add_left ?_ _
  calc i * (dstStride dst * typeSize dst.type) + k
      < i * (dstStride dst * typeSize dst.type) + dstStride dst * typeSize dst.type := by omega
    _ = (i + 1) * (dstStride dst * typeSize dst.type) := (Nat.succ_mul _ _).symm
    _ ≤ j * (dstStride dst * typeSize dst.type) := Nat.mul_le_mul_right _ hij

/-- A regular source is where the same register as a destination is. -/
theorem srcAddr_eq_dstAddr (a0 : ℕ → ℕ) {reg : GenRegister} (hdst : Strided reg)
    (h : if reg.indirect then if reg.width = .W16 then reg.hstride = .S0 else reg.vstride = 0
      else reg.width = .W16 ∨ reg.vstride = reg.width.lanes * stride reg.hstride)
    (hdirect : reg.indirect = false) {lane : ℕ} (hlane : lane < 16) :
    srcAddr a0 reg lane = dstAddr reg lane := by
  have hstride : dstStride reg = stride reg.hstride := if_neg hdst
  have helement : element reg lane = lane * stride reg.hstride := by
    rw [hdirect, if_neg (by decide)] at h
    rw [element]
    rcases h with hwidth | hrow
    · rw [hwidth, Width.lanes, Nat.div_eq_of_lt hlane, Nat.mod_eq_of_lt hlane, Nat.zero_mul,
        Nat.zero_add]
    · rw [hrow, ← Nat.mul_assoc, ← Nat.add_mul, Nat.div_add_mod']
  rw [srcAddr, dstAddr, base, hdirect, if_neg (by decide), helement, hstride, Nat.mul_assoc]

section

variable {op : Opcode} {enabled : (ℕ → Bool) → ℕ → Bool} {a0 : ℕ → ℕ} {dst : GenRegister}
  {srcs : List GenRegister} {condition : ℕ}

theorem mem_writes {i : Insn} {s : State} {p : (File × ℕ) × BitVec 8} :
    p ∈ (lanes enabled i s).flatMap (laneWrites op a0 i s) ↔
      ∃ lane < i.execution_size, enabled s.flags (8 * i.quarter_control + lane) = true ∧
        ∃ k < typeSize i.dst.type, p = ((i.dst.file, dstAddr i.dst lane + k),
          op.result (i.srcs.map fun src => read a0 s src lane) k) := by
  simp only [List.mem_flatMap, lanes, List.mem_filter, List.mem_range, laneWrites, List.mem_map,
    and_assoc, eq_comm]

/-- The first half does not write what the second reads. -/
theorem read_second {s : State} {src : GenRegister} (hapart : Apart a0 dst src)
    (hdst : Strided dst) (hsrc : Regular src) {lane : ℕ} (hlane : lane < 8) :
    read a0 (exec op enabled a0 s ⟨8, 0, 0, dst, srcs⟩) (Qn src 1) lane =
      read a0 s src (8 + lane) := by
  funext k
  rw [read, read, Qn_type, Qn_file, Qn_value]
  split
  · next hk =>
    split
    · rw [show (8 + lane) % 8 = lane % 8 by omega]
    · next hfile =>
      have haddr := ((halved_iff a0 src).mpr hsrc).resolve_left hfile lane hlane
      rw [haddr]
      refine Writes.write_of_notMem fun p hp hpx => ?_
      obtain ⟨j, hj, -, l, hl, rfl⟩ := mem_writes.mp hp
      have hj : j < 8 := hj
      rcases hapart with ⟨rfl, hdirect⟩ | hapart
      · -- the same register: its lanes are those of the destination
        have hregular := srcAddr_eq_dstAddr a0 hdst (hsrc.resolve_left hfile) hdirect
          (show 8 + lane < 16 by omega)
        have hlt := dstAddr_lt src (show j < 8 + lane by omega) hl
        have hpx : dstAddr src j + l = srcAddr a0 src (8 + lane) + k := (Prod.mk.inj hpx).2
        omega
      · exact hapart j (by omega) (8 + lane) (by omega) l hl k hk hpx
  · rfl

theorem flags_exec {i : Insn} (h : i.condmod = 0) (s : State) :
    (exec op enabled a0 s i).flags = s.flags := by
  funext channel
  exact if_neg fun hcond => hcond.1 h

/-- Sixteen lanes are eight and eight. -/
theorem lanes_whole (s : State) :
    lanes enabled (whole dst srcs condition) s =
      lanes enabled ⟨8, 0, 0, dst, srcs⟩ s ++
        (lanes enabled ⟨8, 1, 0, Qn dst 1, srcs.map fun src => Qn src 1⟩ s).map (8 + ·) := by
  have hrange : List.range 16 = List.range 8 ++ (List.range 8).map (8 + ·) := rfl
  simp only [lanes, whole, hrange, List.filter_append, List.filter_map, Nat.mul_zero,
    Nat.zero_add, Nat.mul_one]
  rfl

theorem sameEffect_of_regular (hapart : ∀ src ∈ srcs, Apart a0 dst src) (hdst : Strided dst)
    (hsrcs : ∀ src ∈ srcs, Regular src) : SameEffect a0 (quarters dst srcs) (whole dst srcs 0) := by
  intro op enabled s
  set first : Insn := ⟨8, 0, 0, dst, srcs⟩ with hfirst
  set second : Insn := ⟨8, 1, 0, Qn dst 1, srcs.map fun src => Qn src 1⟩ with hsecond
  set s1 := exec op enabled a0 s first with hs1
  have hflags : s1.flags = s.flags := flags_exec rfl s
  have hwrites : ∀ lane < 8, laneWrites op a0 second s1 lane =
      laneWrites op a0 (whole dst srcs 0) s (8 + lane) := by
    intro lane hlane
    have hread : (second.srcs.map fun src => read a0 s1 src lane) =
        srcs.map fun src => read a0 s src (8 + lane) := by
      rw [hsecond, List.map_map]
      exact List.map_congr_left fun src hsrc =>
        read_second (hapart src hsrc) hdst (hsrcs src hsrc) hlane
    rw [laneWrites, hread, hsecond]
    simp only [Qn_type, Qn_file, dstAddr_Qn hdst]
    rfl
  have hregs : (exec op enabled a0 s1 second).regs =
      (exec op enabled a0 s (whole dst srcs 0)).regs := by
    show Writes.write ((lanes enabled second s1).flatMap (laneWrites op a0 second s1)) s1.regs =
      Writes.write ((lanes enabled (whole dst srcs 0) s).flatMap
        (laneWrites op a0 (whole dst srcs 0) s)) s.regs
    have hlanes : lanes enabled second s1 = lanes enabled second s := by
      rw [lanes, lanes, hflags]
    rw [lanes_whole, List.flatMap_append, Writes.write_append, hlanes, List.flatMap_map]
    congr 1
    refine List.flatMap_congr fun lane hlane => ?_
    exact hwrites lane (List.mem_range.mp (List.mem_filter.mp hlane).1)
  show exec op enabled a0 s1 second = _
  refine State.ext hregs ?_
  exact ((flags_exec rfl s1).trans hflags).trans (flags_exec (i := whole dst srcs 0) rfl s).symm

/-- The modifier is left out. -/
theorem not_sameEffect_of_condition (h : condition ≠ 0) :
    ¬ SameEffect a0 (quarters dst srcs) (whole dst srcs condition) := by
  intro hsame
  have hflags := congrArg (fun s => s.flags 0)
    (hsame ⟨fun _ _ => 0, fun _ => true⟩ (fun _ _ => true) ⟨fun _ => 0, fun _ => false⟩)
  have hcond : (whole dst srcs condition).condmod ≠ 0 := by
    rw [whole, if_pos h]
    exact h
  have hwhole : (exec ⟨fun _ _ => 0, fun _ => true⟩ (fun _ _ => true) a0
      ⟨fun _ => 0, fun _ => false⟩ (whole dst srcs condition)).flags 0 = true := by
    refine if_pos ⟨hcond, le_rfl, ?_⟩
    exact List.mem_filter.mpr ⟨List.mem_range.mpr (show 0 < 16 by decide), rfl⟩
  have hquarters : ((quarters dst srcs).foldl (exec ⟨fun _ _ => 0, fun _ => true⟩
      (fun _ _ => true) a0) ⟨fun _ => 0, fun _ => false⟩).flags = fun _ => false := by
    rw [quarters, List.foldl_cons, List.foldl_cons, List.foldl_nil, flags_exec rfl, flags_exec rfl]
  rw [hwhole, hquarters] at hflags
  cases hflags

/-- The lanes of a scalar destination lie one after another, and the second half goes over the
first. -/
theorem not_sameEffect_of_scalar (h : ¬ Strided dst) :
    ¬ SameEffect a0 (quarters dst srcs) (whole dst srcs condition) := by
  intro hsame
  set op : Opcode := ⟨fun _ _ => 1, fun _ => true⟩
  set enabled : (ℕ → Bool) → ℕ → Bool := fun _ channel => channel = 15
  set s : State := ⟨fun _ => 0, fun _ => false⟩
  have hregs := congrArg (fun s => s.regs (dst.file, dstAddr dst 15)) (hsame op enabled s)
  have hwhole : (exec op enabled a0 s (whole dst srcs condition)).regs
      (dst.file, dstAddr dst 15) = 1 := by
    refine Writes.write_of_mem ⟨((dst.file, dstAddr dst 15), 1), ?_, rfl⟩ fun p hp _ => ?_
    · exact mem_writes.mpr ⟨15, show 15 < 16 by decide, rfl, 0, typeSize_pos _, rfl⟩
    · obtain ⟨_, _, _, _, _, rfl⟩ := mem_writes.mp hp
      rfl
  have hquarters : ((quarters dst srcs).foldl (exec op enabled a0) s).regs
      (dst.file, dstAddr dst 15) = 0 := by
    have hfirst : (exec op enabled a0 s ⟨8, 0, 0, dst, srcs⟩).regs (dst.file, dstAddr dst 15) = 0 :=
      Writes.write_of_notMem fun p hp _ => by
        obtain ⟨lane, hlane, hen, -⟩ := mem_writes.mp hp
        have hlane : lane < 8 := hlane
        have hen : 8 * 0 + lane = 15 := by simpa [enabled] using hen
        omega
    rw [quarters, List.foldl_cons, List.foldl_cons, List.foldl_nil]
    refine (Writes.write_of_notMem fun p hp hpx => ?_).trans hfirst
    obtain ⟨lane, hlane, hen, k, hk, rfl⟩ := mem_writes.mp hp
    have hen : 8 * 1 + lane = 15 := by simpa [enabled] using hen
    obtain rfl : lane = 7 := by omega
    rw [Qn_of_not_strided h] at hk hpx
    have hpx : dstAddr dst 7 + k = dstAddr dst 15 := (Prod.mk.inj hpx).2
    have := dstAddr_lt dst (show 7 < 15 by decide) hk
    omega
  rw [hwhole, hquarters] at hregs
  exact absurd hregs (by decide)

/-- A source whose second half is elsewhere, in the one lane that is enabled. -/
theorem not_sameEffect_of_source (hdst : Strided dst) {src : GenRegister} (hmem : src ∈ srcs)
    (h : ¬ Regular src) : ¬ SameEffect a0 (quarters dst srcs) (whole dst srcs condition) := by
  intro hsame
  have hhalved := mt (halved_iff a0 src).mp h
  rw [Halved, not_or, not_forall] at hhalved
  obtain ⟨hfile, lane, hlane⟩ := hhalved
  rw [Classical.not_imp] at hlane
  obtain ⟨hlane, haddr⟩ := hlane
  obtain ⟨n, hn, rfl⟩ := List.mem_iff_getElem.mp hmem
  have hpos := typeSize_pos srcs[n].type
  set op : Opcode := ⟨fun values _ => (values.getD n 0) 0, fun _ => true⟩
  set enabled : (ℕ → Bool) → ℕ → Bool := fun _ channel => channel = 8 + lane
  set s : State := ⟨fun x => if x = (srcs[n].file, srcAddr a0 srcs[n] (8 + lane)) then 1 else 0,
    fun _ => false⟩ with hs
  have hresult : ∀ (f : GenRegister → GenRegister) (s : State) (lane : ℕ),
      op.result ((srcs.map f).map fun src => read a0 s src lane) 0 =
        read a0 s (f srcs[n]) lane 0 := by
    intro f s lane
    show (((srcs.map f).map fun src => read a0 s src lane).getD n 0) 0 = _
    simp [hn]
  have hregs := congrArg (fun s => s.regs (dst.file, dstAddr dst (8 + lane))) (hsame op enabled s)
  have hwhole : (exec op enabled a0 s (whole dst srcs condition)).regs
      (dst.file, dstAddr dst (8 + lane)) = 1 := by
    have hread : op.result (srcs.map fun src => read a0 s src (8 + lane)) 0 = 1 := by
      have h := hresult id s (8 + lane)
      rw [List.map_id] at h
      rw [h, id, read, if_pos hpos, if_neg hfile]
      exact if_pos rfl
    refine Writes.write_of_mem ⟨((dst.file, dstAddr dst (8 + lane)), 1), ?_, rfl⟩ fun p hp hpx => ?_
    · refine mem_writes.mpr ⟨8 + lane, show 8 + lane < 16 by omega, ?_, 0, typeSize_pos _, ?_⟩
      · simp [enabled, whole]
      · show _ = ((dst.file, _), op.result (srcs.map fun src => read a0 s src (8 + lane)) 0)
        rw [hread]
        rfl
    · obtain ⟨lane', hlane', hen, k, hk, rfl⟩ := mem_writes.mp hp
      obtain rfl : lane' = 8 + lane := by simpa [enabled, whole] using hen
      have hk : k = 0 := by
        have := (Prod.mk.inj hpx).2
        simpa [whole] using this
      subst hk
      exact hread
  have hquarters : ((quarters dst srcs).foldl (exec op enabled a0) s).regs
      (dst.file, dstAddr dst (8 + lane)) = 0 := by
    rw [quarters, List.foldl_cons, List.foldl_cons, List.foldl_nil]
    -- the first half does nothing
    set s1 := exec op enabled a0 s ⟨8, 0, 0, dst, srcs⟩
    have hfirst : s1.regs = s.regs := by
      funext x
      refine Writes.write_of_notMem fun p hp _ => ?_
      obtain ⟨lane', hlane', hen, -⟩ := mem_writes.mp hp
      have hlane' : lane' < 8 := hlane'
      have hen : 8 * 0 + lane' = 8 + lane := by simpa [enabled] using hen
      omega
    have hread : op.result ((srcs.map fun src => Qn src 1).map fun src => read a0 s1 src lane) 0 =
        0 := by
      rw [hresult, read, Qn_type, Qn_file, if_pos hpos, if_neg hfile, hfirst]
      exact if_neg fun heq => haddr (Prod.mk.inj heq).2
    refine Writes.write_of_mem ⟨((dst.file, dstAddr dst (8 + lane)), 0), ?_, rfl⟩ fun p hp hpx => ?_
    · refine mem_writes.mpr ⟨lane, hlane, ?_, 0, typeSize_pos _, ?_⟩
      · simp [enabled]
      · rw [hread, Qn_file, dstAddr_Qn hdst]
        rfl
    · obtain ⟨lane', hlane', hen, k, hk, rfl⟩ := mem_writes.mp hp
      obtain rfl : lane' = lane := by
        have hen : 8 * 1 + lane' = 8 + lane := by simpa [enabled] using hen
        omega
      have hk : k = 0 := by
        have := (Prod.mk.inj hpx).2
        rw [dstAddr_Qn hdst] at this
        omega
      subst hk
      exact hread
  rw [hwhole, hquarters] at hregs
  exact absurd hregs (by decide)

theorem quarters_iff (hapart : ∀ src ∈ srcs, Apart a0 dst src) :
    SameEffect a0 (quarters dst srcs) (whole dst srcs condition) ↔
      condition = 0 ∧ Strided dst ∧ ∀ src ∈ srcs, Regular src := by
  constructor
  · intro h
    have hdst : Strided dst := not_not.mp fun hdst => not_sameEffect_of_scalar hdst h
    refine ⟨not_not.mp fun hcond => not_sameEffect_of_condition hcond h, hdst, fun src hsrc => ?_⟩
    exact not_not.mp fun hregular => not_sameEffect_of_source hdst hsrc hregular h
  · rintro ⟨rfl, hdst, hsrcs⟩
    exact sameEffect_of_regular hapart hdst hsrcs

end

/-- Sixteen lanes in two halves, for all operands that `alu1` and `alu2` split. -/
theorem split_iff (a0 : ℕ → ℕ) (dst src0 src1 : GenRegister) (condition : ℕ)
    (h0 : Apart a0 dst src0) (h1 : Apart a0 dst src1) :
    (needToSplitAlu1 dst src0 = true →
      (SameEffect a0 (alu1 dst src0 condition) (whole dst [src0] condition) ↔
        condition = 0 ∧ Strided dst ∧ Regular src0)) ∧
    (needToSplitAlu2 dst src0 src1 = true →
      (SameEffect a0 (alu2 dst src0 src1 condition) (whole dst [src0, src1] condition) ↔
        condition = 0 ∧ Strided dst ∧ Regular src0 ∧ Regular src1)) := by
  constructor
  · intro hsplit
    rw [alu1, if_neg (by rw [hsplit]; decide), quarters_iff (by simpa using h0)]
    simp
  · intro hsplit
    rw [alu2, if_neg (by rw [hsplit]; decide), quarters_iff (by simpa using ⟨h0, h1⟩)]
    simp

/-- A vector of 64-bit integers. -/
def longs (nr : ℕ) : GenRegister :=
  ⟨.GENERAL_REGISTER_FILE, .UL, nr, 0, 4, .W4, .S1, false, 0, 0, fun _ _ => 0⟩

theorem apart_longs {nr nr' : ℕ} (h : nr + 4 ≤ nr') :
    Apart (fun _ => 0) (longs nr) (longs nr') := by
  refine Or.inr fun i hi j hj k hk l hl heq => ?_
  have haddr := (Prod.mk.inj heq).2
  simp only [dstAddr, srcAddr, base, element, position, longs, dstStride, stride, Width.lanes,
    typeSize] at haddr hk
  simp only [reduceCtorEq, if_false, Bool.false_eq_true] at haddr
  omega

theorem split_iff_longs :
    SameEffect (fun _ => 0) (alu2 (longs 8) (longs 16) (longs 24) 0)
      (whole (longs 8) [longs 16, longs 24] 0) := by
  have hregular : ∀ nr, Regular (longs nr) := fun nr => Or.inr (Or.inr rfl)
  have hstrided : Strided (longs 8) := HorizontalStride.noConfusion
  exact ((split_iff (fun _ => 0) (longs 8) (longs 16) (longs 24) 0 (apart_longs (by decide))
    (apart_longs (by decide))).2
    (by decide)).mpr ⟨rfl, hstrided, hregular 16, hregular 24⟩

/-- `and` of 64-bit integers with a conditional modifier: no flag is written. -/
theorem longs_flags : needToSplitAlu2 (longs 8) (longs 16) (longs 24) = true ∧
    ¬ SameEffect (fun _ => 0) (alu2 (longs 8) (longs 16) (longs 24) 1)
      (whole (longs 8) [longs 16, longs 24] 1) :=
  ⟨by decide, not_sameEffect_of_condition (by decide)⟩

end SplitAlu

end Backend
