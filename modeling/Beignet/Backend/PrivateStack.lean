/-
Private memory: `emitAllocaInst` of `llvm_gen_backend.cpp`, `Context::buildStack` and
`GenContext::emitStackPointer`.

The backend emits additions to the stack pointer and keeps the size they come to in 32 bits, from
which it takes the next step to an aligned address; the two part where an array allocation does
not take whole dwords.  An address is counted from the start of the stack buffer.

* `Fits` — the condition, in natural numbers, on the allocas and the part of a lane;
* `Fits.emitAll_eq`, `Fits.placed` — then nothing wraps and a lane has its variables in place;
* `fits_of_placed` — the way back, from the addresses of the first two lanes;
* `lanes_lt`, `buildStack_some` — lanes that are apart bound the turns of the loop;
* **`privateStack_layout_iff`** — all lanes have their variables aligned and apart just if the
  allocas fit.
-/
import Beignet.Lib.Iterate
import Beignet.Llvm.TypeLayout

namespace Backend

namespace PrivateStack

open Llvm.TypeLayout
open Layout (Segment roundUp Stacked)

variable {w : ℕ}

/-- `arraySize` is the operand of an array allocation. -/
structure AllocaInst where
  elemType : Ty
  arraySize : Option ℕ

/-- What an alloca becomes: `dst` takes the stack pointer, `add` moves it. -/
inductive Insn where
  | dst
  | add (imm : BitVec 32)

def ALIGN (x a : BitVec 32) : BitVec 32 := if x % a ≠ 0 then x + a - x % a else x

/-- What is added to the size at compile time and to the stack pointer at run time. -/
def AllocaInst.sizes (I : AllocaInst) (elementSize : BitVec 32) : BitVec 32 × BitVec 32 :=
  match I.arraySize with
  | none => (elementSize, elementSize)
  | some elemNum =>
    let elementSize := elementSize * BitVec.ofNat 32 elemNum
    (elementSize, ALIGN elementSize 4)

/-- With the stack size that is kept at compile time, and what it is afterwards. -/
def emitAllocaInst (ptrSize : ℕ) (I : AllocaInst) (stackSize : BitVec 32) :
    Option (List Insn × BitVec 32) := do
  let elementSize ← getTypeByteSize ptrSize I.elemType
  let (elementSize, imm) := I.sizes elementSize
  let align := getAlignmentByte ptrSize I.elemType
  -- the assertion that the alignment is a power of 2
  if align ≠ 0 ∧ align &&& (align - 1) = 0 then
    let step := ((stackSize + (align - 1)) &&& ~~~(align - 1)) - stackSize
    let moves := if 1 < align ∧ step ≠ 0 then [Insn.add step] else []
    let stackSize := if 1 < align ∧ step ≠ 0 then stackSize + step else stackSize
    return (moves ++ [Insn.dst, .add imm], stackSize + elementSize)
  else none

/-- The allocas of a function. -/
def emitAll (ptrSize : ℕ) : List AllocaInst → BitVec 32 → Option (List Insn × BitVec 32)
  | [], stackSize => some ([], stackSize)
  | I :: Is, stackSize => do
    let (insns, stackSize) ← emitAllocaInst ptrSize I stackSize
    let (rest, stackSize) ← emitAll ptrSize Is stackSize
    return (insns ++ rest, stackSize)

/-- The addresses that the instructions give at run time. -/
def exec (stackptr : BitVec w) : List Insn → List (BitVec w)
  | [] => []
  | .dst :: insns => stackptr :: exec stackptr insns
  | .add imm :: insns => exec (stackptr + imm.setWidth w) insns

/-- The size for one lane, with a limit on the turns of the loop. -/
def buildStack (fuel : ℕ) (stackSize : BitVec 32) : Option (BitVec 32) :=
  Iterate.whileDo (fun size => decide (size < stackSize)) (· * 3) fuel 128

def simdWidth (simd16 : Bool) : ℕ := if simd16 then 16 else 8

/-- The stack pointer of a lane at the start. -/
def emitStackPointer (w : ℕ) (simd16 : Bool) (perLaneSize : BitVec 32) (threadId laneId : ℕ) :
    BitVec w :=
  let tmpReg := BitVec.ofNat 16 threadId &&& 0x1ff
  let tmpReg := tmpReg * BitVec.ofNat 16 (simdWidth simd16)
  let stackptr := (BitVec.ofNat 16 laneId).setWidth 32 + tmpReg.setWidth 32
  (perLaneSize * stackptr).setWidth w

/-! ### What the stack is for -/

/-- What an alloca asks for: `size` is that of the elements with the padding between them, `bytes`
is added to the size that is kept, and `moved` to the stack pointer. -/
structure Slot where
  align : ℕ
  size : ℕ
  bytes : ℕ
  moved : ℕ

def AllocaInst.count (I : AllocaInst) : ℕ := I.arraySize.getD 1

def AllocaInst.slot (ptrSize : ℕ) (I : AllocaInst) : Slot :=
  let bytes := I.count * used ptrSize I.elemType
  { align := alignOf ptrSize I.elemType
    size := I.count * roundUp (used ptrSize I.elemType) (alignOf ptrSize I.elemType)
    bytes := bytes
    moved := if I.arraySize = none then bytes else roundUp bytes 4 }

def ranges (vs : List Slot) (addrs : List (BitVec w)) : List Segment :=
  List.zipWith (fun v addr => ⟨addr.toNat, v.size⟩) vs addrs

def Aligned (vs : List Slot) (addrs : List (BitVec w)) : Prop :=
  List.Forall₂ (fun v addr => v.align ∣ addr.toNat) vs addrs

/-- The variables of a lane are aligned, apart and in the lane's own part. -/
structure Placed (vs : List Slot) (addrs : List (BitVec w)) (lane : Segment) : Prop where
  aligned : Aligned vs addrs
  disjoint : (ranges vs addrs).Pairwise fun g g' => Disjoint g.bytes g'.bytes
  inside : ∀ g ∈ ranges vs addrs, g.bytes ⊆ lane.bytes

/-- The part of a lane. -/
def lanePart (w : ℕ) (simd16 : Bool) (size : BitVec 32) (threadId laneId : ℕ) : Segment :=
  ⟨(emitStackPointer w simd16 size threadId laneId).toNat, size.toNat⟩

/-- The layout of a function: every lane of every thread has its variables in place, and the parts
of different lanes are apart. -/
def PrivateLayout (ptrSize w : ℕ) (simd16 : Bool) (Is : List AllocaInst) : Prop :=
  ∃ insns stackSize size, emitAll ptrSize Is 0 = some (insns, stackSize) ∧
    (∃ n, ∀ fuel, n < fuel → buildStack fuel stackSize = some size) ∧
    ∀ thread < 512, ∀ lane < simdWidth simd16,
      Placed (Is.map (AllocaInst.slot ptrSize))
        (exec (emitStackPointer w simd16 size thread lane) insns)
        (lanePart w simd16 size thread lane) ∧
      ∀ thread' < 512, ∀ lane' < simdWidth simd16, (thread, lane) ≠ (thread', lane') →
        Disjoint (lanePart w simd16 size thread lane).bytes
          (lanePart w simd16 size thread' lane').bytes

/-- What an alloca is like: its type takes bytes, and the alignment is a power of two. -/
structure AllocaInst.Proper (ptrSize : ℕ) (I : AllocaInst) : Prop where
  wf : WF ptrSize I.elemType
  defined : Defined ptrSize I.elemType
  align : ∃ k, alignOf ptrSize I.elemType = 2 ^ k
  sized : 0 < used ptrSize I.elemType

/-- The size that is kept at compile time and the stack pointer of a lane whose part starts at 0. -/
structure Stack where
  kept : ℕ
  ptr : ℕ

def Slot.start (v : Slot) (s : Stack) : ℕ := roundUp s.kept v.align

/-- The step comes from the size that is kept, and moves the stack pointer. -/
def Slot.offset (v : Slot) (s : Stack) : ℕ := s.ptr + (v.start s - s.kept)

def Slot.after (v : Slot) (s : Stack) : Stack := ⟨v.start s + v.bytes, v.offset s + v.moved⟩

/-- The variables, where the stack pointer puts them. -/
def segments (s : Stack) : List Slot → List Segment
  | [] => []
  | v :: vs => ⟨v.offset s, v.size⟩ :: segments (v.after s) vs

/-- The size that is kept in the end. -/
def stackEnd (s : Stack) : List Slot → ℕ
  | [] => s.kept
  | v :: vs => stackEnd (v.after s) vs

/-- Where the next variable with an element starts, or the end of the lane's part. -/
def next (room : ℕ) (s : Stack) : List Slot → ℕ
  | [] => room
  | v :: vs => if v.size = 0 then next room (v.after s) vs else v.offset s

/-- Each alignment divides 128 and what the stack pointer is ahead of the size that is kept, and the
padding of a variable fits in what lies before the next one. -/
def Fits (room : ℕ) (s : Stack) : List Slot → Prop
  | [] => True
  | v :: vs =>
    (v.align ∣ 128 ∧ v.align ∣ s.ptr - s.kept) ∧
      (v.size = 0 ∨ v.offset s + v.size ≤ next room (v.after s) vs) ∧ Fits room (v.after s) vs

/-- The turns of the loop after which the parts of all lanes of 512 threads stay in 32 bits. -/
def turns (simd16 : Bool) : ℕ := if simd16 then 7 else 8

/-- The allocas fit in the part of a lane, which is the least of the loop's sizes that holds what is
kept at compile time. -/
def Sound (ptrSize : ℕ) (simd16 : Bool) (Is : List AllocaInst) : Prop :=
  ∃ j ≤ turns simd16,
    (∀ i < j, 128 * 3 ^ i < stackEnd ⟨0, 0⟩ (Is.map (AllocaInst.slot ptrSize))) ∧
    Fits (128 * 3 ^ j) ⟨0, 0⟩ (Is.map (AllocaInst.slot ptrSize))

/-! ### One alloca -/

theorem roundUp_eq_div {a b : ℕ} (hb : 0 < b) : roundUp a b = (a + (b - 1)) / b * b := by
  have hdiv := Nat.div_add_mod (a + (b - 1)) b
  have hmod := Nat.mod_lt (a + (b - 1)) hb
  rw [Nat.mul_comm] at hdiv
  refine le_antisymm (Layout.roundUp_le_of_dvd hb (by omega) (Nat.dvd_mul_left b _)) ?_
  -- both are multiples, and the quotient is not one more
  have hlt : (a + (b - 1)) / b * b < roundUp a b + b := by
    have := Layout.le_roundUp (a := a) hb
    omega
  obtain ⟨q, hq⟩ := Layout.dvd_roundUp (a := a) hb
  rw [hq, Nat.mul_comm b] at hlt ⊢
  have hlt' : (a + (b - 1)) / b < q + 1 := Nat.lt_of_mul_lt_mul_right (by rwa [Nat.succ_mul])
  exact Nat.mul_le_mul_right b (Nat.lt_succ_iff.mp hlt')

theorem and_not_mask (x : BitVec 32) (k : ℕ) :
    x &&& ~~~BitVec.ofNat 32 (2 ^ k - 1) = BitVec.ofNat 32 (x.toNat / 2 ^ k * 2 ^ k) := by
  refine BitVec.eq_of_getLsbD_eq fun i hi => ?_
  simp only [BitVec.getLsbD_and, BitVec.getLsbD_not, BitVec.getLsbD_ofNat, hi, decide_true,
    Bool.true_and, Nat.testBit_two_pow_sub_one, Nat.testBit_mul_two_pow, Nat.testBit_div_two_pow]
  by_cases hik : i < k
  · simp [hik]
  · have hge : k ≤ i := not_lt.mp hik
    have hadd : i - k + k = i := Nat.sub_add_cancel hge
    simp [hik, hge, hadd, BitVec.getLsbD]

theorem and_pred (k : ℕ) : BitVec.ofNat 32 (2 ^ k) &&& BitVec.ofNat 32 (2 ^ k - 1) = 0 := by
  rw [← BitVec.ofNat_and, Nat.and_two_pow_sub_one_eq_mod, Nat.mod_self]
  rfl

theorem toNat_ofNat {n : ℕ} (h : n < 2 ^ 32) : (BitVec.ofNat 32 n).toNat = n := by
  rw [BitVec.toNat_ofNat, Nat.mod_eq_of_lt h]

theorem ofNat_eq_zero {n : ℕ} (h : n < 2 ^ 32) (h0 : BitVec.ofNat 32 n = 0) : n = 0 := by
  rw [← toNat_ofNat h, h0]
  rfl

theorem setWidth_ofNat {n : ℕ} (h : n < 2 ^ 32) :
    (BitVec.ofNat 32 n).setWidth w = BitVec.ofNat w n := by
  refine BitVec.eq_of_toNat_eq ?_
  rw [BitVec.toNat_setWidth, toNat_ofNat h, BitVec.toNat_ofNat]

/-- The step to the next multiple. -/
theorem step_eq (lo : ℕ) {k : ℕ} (h : lo + 2 ^ k < 2 ^ 32) :
    ((BitVec.ofNat 32 lo + (BitVec.ofNat 32 (2 ^ k) - 1)) &&& ~~~(BitVec.ofNat 32 (2 ^ k) - 1)) -
      BitVec.ofNat 32 lo = BitVec.ofNat 32 (roundUp lo (2 ^ k) - lo) := by
  have hpos := Nat.two_pow_pos k
  have hpred : BitVec.ofNat 32 (2 ^ k) - 1 = BitVec.ofNat 32 (2 ^ k - 1) :=
    BitVec.ofNat_sub_ofNat_of_le _ 1 (by decide) hpos
  have hsum : (BitVec.ofNat 32 lo + BitVec.ofNat 32 (2 ^ k - 1)).toNat = lo + (2 ^ k - 1) := by
    rw [← BitVec.ofNat_add, BitVec.toNat_ofNat, Nat.mod_eq_of_lt (by omega)]
  rw [hpred, and_not_mask, hsum, ← roundUp_eq_div hpos,
    BitVec.ofNat_sub_ofNat_of_le _ _ (by omega) (Layout.le_roundUp hpos)]

theorem ALIGN_eq {n : ℕ} (h : n < 2 ^ 31) :
    ALIGN (BitVec.ofNat 32 n) 4 = BitVec.ofNat 32 (roundUp n 4) := by
  have hmod : BitVec.ofNat 32 n % 4 = BitVec.ofNat 32 (n % 4) := by
    refine BitVec.eq_of_toNat_eq ?_
    have hlit : (4 : BitVec 32).toNat = 4 := rfl
    rw [BitVec.toNat_umod, hlit, BitVec.toNat_ofNat, BitVec.toNat_ofNat]
    omega
  rw [ALIGN, roundUp, hmod]
  by_cases h0 : n % 4 = 0
  · rw [h0, if_neg (not_not.mpr rfl)]
    exact if_neg (not_not.mpr rfl)
  · rw [if_pos h0, if_pos fun hz => h0 (ofNat_eq_zero (by omega) hz),
      ← BitVec.ofNat_sub_ofNat_of_le _ _ (by omega) (by omega), BitVec.ofNat_add]
    rfl

section

variable {ptrSize room : ℕ} {I : AllocaInst} {Is : List AllocaInst} {s : Stack} {v : Slot}
  {vs : List Slot}

theorem sizes_eq (h : (I.slot ptrSize).bytes < 2 ^ 31) :
    I.sizes (BitVec.ofNat 32 (used ptrSize I.elemType)) =
      (BitVec.ofNat 32 (I.slot ptrSize).bytes, BitVec.ofNat 32 (I.slot ptrSize).moved) := by
  obtain ⟨ty, _ | elemNum⟩ := I
  · have hone : 1 * used ptrSize ty = used ptrSize ty := Nat.one_mul _
    exact Prod.ext (congrArg (BitVec.ofNat 32) hone.symm) (congrArg (BitVec.ofNat 32) hone.symm)
  · have hbytes : BitVec.ofNat 32 (used ptrSize ty) * BitVec.ofNat 32 elemNum =
        BitVec.ofNat 32 (elemNum * used ptrSize ty) := by
      rw [← BitVec.ofNat_mul, Nat.mul_comm]
    exact Prod.ext hbytes ((congrArg (ALIGN · 4) hbytes).trans (ALIGN_eq h))

/-- The moves to an aligned address, which is then taken. -/
theorem emitAllocaInst_eq (hptr : ptrSize < 2 ^ 31) (hbytes : 8 ∣ ptrSize) (h : I.Proper ptrSize)
    (hs : s.kept < 2 ^ 31) :
    let sizes := I.sizes (BitVec.ofNat 32 (used ptrSize I.elemType))
    ∃ moves, emitAllocaInst ptrSize I (BitVec.ofNat 32 s.kept) =
        some (moves ++ [Insn.dst, .add sizes.2],
          BitVec.ofNat 32 ((I.slot ptrSize).start s) + sizes.1) ∧
      ∀ (sp : BitVec w) (rest : List Insn), exec (sp + BitVec.ofNat w s.ptr) (moves ++ rest) =
        exec (sp + BitVec.ofNat w ((I.slot ptrSize).offset s)) rest := by
  obtain ⟨k, halign⟩ := h.align
  have hpos := Nat.two_pow_pos k
  have hle := Layout.le_roundUp (a := s.kept) hpos
  have hup := Layout.roundUp_lt (a := s.kept) hpos
  have hpow : 2 ^ k < 2 ^ 28 := halign ▸ WF.alignOf_lt hptr _ h.wf
  have hslot : (I.slot ptrSize).align = 2 ^ k := halign
  rw [Slot.offset, Slot.start, hslot]
  have hassert : BitVec.ofNat 32 (2 ^ k) ≠ 0 ∧
      BitVec.ofNat 32 (2 ^ k) &&& (BitVec.ofNat 32 (2 ^ k) - 1) = 0 := by
    refine ⟨fun h0 => hpos.ne' (ofNat_eq_zero (by omega) h0), ?_⟩
    have hpred : BitVec.ofNat 32 (2 ^ k) - 1 = BitVec.ofNat 32 (2 ^ k - 1) :=
      BitVec.ofNat_sub_ofNat_of_le _ 1 (by decide) hpos
    rw [hpred, and_pred]
  have hstep := step_eq s.kept (k := k) (by omega)
  rw [emitAllocaInst, getTypeByteSize_eq hptr hbytes h.wf h.defined,
    getAlignmentByte_eq hptr _ h.wf, halign]
  simp only [Option.bind_eq_bind, Option.bind_some, if_pos hassert, hstep]
  by_cases hmove :
      1 < BitVec.ofNat 32 (2 ^ k) ∧ BitVec.ofNat 32 (roundUp s.kept (2 ^ k) - s.kept) ≠ 0
  · simp only [if_pos hmove, ← BitVec.ofNat_add, Nat.add_sub_cancel' hle]
    refine ⟨_, rfl, fun sp rest => ?_⟩
    rw [BitVec.ofNat_add, ← BitVec.add_assoc,
      ← setWidth_ofNat (w := w) (by omega : roundUp s.kept (2 ^ k) - s.kept < 2 ^ 32)]
    rfl
  · have hsame : roundUp s.kept (2 ^ k) = s.kept := by
      by_cases hone : 2 ^ k = 1
      · rw [hone, roundUp_eq_self (Nat.one_dvd s.kept)]
      · have hlt : 1 < BitVec.ofNat 32 (2 ^ k) := by
          rw [BitVec.lt_def, toNat_ofNat (by omega)]
          show 1 < 2 ^ k
          omega
        have hzero : BitVec.ofNat 32 (roundUp s.kept (2 ^ k) - s.kept) = 0 :=
          not_not.mp fun hne => hmove ⟨hlt, hne⟩
        have := ofNat_eq_zero (by omega) hzero
        omega
    simp only [if_neg hmove]
    rw [hsame, Nat.sub_self, Nat.add_zero]
    exact ⟨[], rfl, fun sp rest => rfl⟩

/-- One alloca and those behind it. -/
theorem emitAll_cons (hptr : ptrSize < 2 ^ 31) (hbytes : 8 ∣ ptrSize) (h : I.Proper ptrSize)
    (hs : s.kept < 2 ^ 31) (Is : List AllocaInst) :
    ∃ (insns : List Insn) (size : BitVec 32), emitAll ptrSize (I :: Is) (BitVec.ofNat 32 s.kept) =
        (emitAll ptrSize Is size).map (fun r => (insns ++ r.1, r.2)) ∧
      (∀ (sp : BitVec w) rest, ∃ sp', exec (sp + BitVec.ofNat w s.ptr) (insns ++ rest) =
        (sp + BitVec.ofNat w ((I.slot ptrSize).offset s)) :: exec sp' rest ∧
        ((I.slot ptrSize).bytes < 2 ^ 31 →
          sp' = sp + BitVec.ofNat w ((I.slot ptrSize).after s).ptr)) ∧
      ((I.slot ptrSize).bytes < 2 ^ 31 →
        size = BitVec.ofNat 32 ((I.slot ptrSize).after s).kept) := by
  obtain ⟨moves, hemit, hexec⟩ := emitAllocaInst_eq (w := w) hptr hbytes h hs
  generalize hsizes : I.sizes (BitVec.ofNat 32 (used ptrSize I.elemType)) = sizes at hemit
  refine ⟨moves ++ [.dst, .add sizes.2], BitVec.ofNat 32 ((I.slot ptrSize).start s) + sizes.1, ?_,
    fun sp rest => ⟨_, by rw [List.append_assoc, hexec]; rfl, fun hlt => ?_⟩, fun hlt => ?_⟩
  · rw [emitAll, hemit]
    simp only [Option.bind_eq_bind, Option.bind_some]
    cases emitAll ptrSize Is (BitVec.ofNat 32 ((I.slot ptrSize).start s) + sizes.1) with
    | none => rfl
    | some r => rfl
  · have hmoved : (I.slot ptrSize).moved < 2 ^ 32 := by
      have hround := Layout.roundUp_lt (a := (I.slot ptrSize).bytes) (by decide : 0 < 4)
      simp only [AllocaInst.slot] at hround hlt ⊢
      split_ifs <;> omega
    rw [← hsizes, sizes_eq hlt, setWidth_ofNat hmoved, BitVec.add_assoc, ← BitVec.ofNat_add]
    rfl
  · rw [← hsizes, sizes_eq hlt, ← BitVec.ofNat_add]
    rfl

/-! ### All of them -/

structure Slot.Proper (v : Slot) : Prop where
  align : ∃ k < 28, v.align = 2 ^ k
  bytes_le : v.bytes ≤ v.size
  le_moved : v.bytes ≤ v.moved
  moved_lt : v.moved < v.bytes + 4
  empty : v.size = 0 → v.moved = 0

theorem AllocaInst.Proper.slot (hptr : ptrSize < 2 ^ 31) (h : I.Proper ptrSize) :
    (I.slot ptrSize).Proper := by
  obtain ⟨k, hk⟩ := h.align
  have hlt : 2 ^ k < 2 ^ 28 := hk ▸ WF.alignOf_lt hptr _ h.wf
  have hpos : 0 < alignOf ptrSize I.elemType := hk ▸ Nat.two_pow_pos k
  have hle := Layout.le_roundUp (a := used ptrSize I.elemType) hpos
  have hround := Layout.le_roundUp (a := I.count * used ptrSize I.elemType) (by decide : 0 < 4)
  have hround' := Layout.roundUp_lt (a := I.count * used ptrSize I.elemType) (by decide : 0 < 4)
  refine ⟨⟨k, (Nat.pow_lt_pow_iff_right (by decide)).mp hlt, hk⟩, Nat.mul_le_mul_left _ hle, ?_, ?_,
    fun hzero => ?_⟩
  · simp only [AllocaInst.slot]
    split_ifs <;> omega
  · simp only [AllocaInst.slot]
    split_ifs <;> omega
  · have hcount : I.count = 0 := by
      have := h.sized
      exact (Nat.mul_eq_zero.mp hzero).resolve_right (by omega)
    simp only [AllocaInst.slot, hcount, Nat.zero_mul]
    split_ifs <;> rfl

theorem Slot.Proper.align_pos (h : v.Proper) : 0 < v.align := by
  obtain ⟨k, -, hk⟩ := h.align
  exact hk ▸ Nat.two_pow_pos k

/-- The stack pointer is ahead, but not by more than the part of a lane. -/
structure Stack.Inv (room : ℕ) (s : Stack) : Prop where
  le : s.kept ≤ s.ptr
  kept_le : s.kept ≤ room
  ptr_le : s.ptr ≤ s.kept + room + 3

theorem Stack.inv_zero (room : ℕ) : Stack.Inv room ⟨0, 0⟩ :=
  ⟨le_rfl, Nat.zero_le _, Nat.zero_le _⟩

theorem Stack.Inv.offset_eq (h : s.Inv room) (hv : v.Proper) :
    v.offset s = s.ptr - s.kept + v.start s := by
  have hle : s.kept ≤ v.start s := Layout.le_roundUp hv.align_pos
  have := h.le
  rw [Slot.offset]
  omega

theorem Stack.Inv.start_le (h : s.Inv room) (hv : v.Proper) (hdvd : v.align ∣ room) :
    v.start s ≤ room :=
  Layout.roundUp_le_of_dvd hv.align_pos h.kept_le hdvd

theorem Stack.Inv.after (h : s.Inv room) (hv : v.Proper) (hdvd : v.align ∣ room)
    (hroom : v.size = 0 ∨ v.offset s + v.size ≤ room) : (v.after s).Inv room ∧ v.bytes ≤ room := by
  have hstart := h.start_le hv hdvd
  have hoffset := h.offset_eq hv
  have := hv.bytes_le
  have := hv.le_moved
  have := hv.moved_lt
  have := hv.empty
  have := h.ptr_le
  refine ⟨⟨?_, ?_, ?_⟩, by omega⟩
  all_goals simp only [Slot.after]; omega

theorem next_le (h : Fits room s vs) : next room s vs ≤ room := by
  induction vs generalizing s with
  | nil => exact le_rfl
  | cons v vs ih =>
    obtain ⟨-, hroom, hrest⟩ := h
    rw [next]
    split_ifs with h0
    · exact ih hrest
    · exact (Nat.le_add_right _ _).trans ((hroom.resolve_left h0).trans (ih hrest))

theorem Fits.emitAll_eq (hptr : ptrSize < 2 ^ 31) (hbytes : 8 ∣ ptrSize)
    (h : ∀ I ∈ Is, I.Proper ptrSize) (hroom : 128 ∣ room) (hlt : room < 2 ^ 31) (hs : s.Inv room)
    (hfits : Fits room s (Is.map (AllocaInst.slot ptrSize))) :
    let vs := Is.map (AllocaInst.slot ptrSize)
    stackEnd s vs ≤ room ∧ ∃ insns, emitAll ptrSize Is (BitVec.ofNat 32 s.kept) =
        some (insns, BitVec.ofNat 32 (stackEnd s vs)) ∧
      ∀ sp : BitVec w, exec (sp + BitVec.ofNat w s.ptr) insns =
        (segments s vs).map fun g => sp + BitVec.ofNat w g.offset := by
  induction Is generalizing s with
  | nil => exact ⟨hs.kept_le, [], rfl, fun sp => rfl⟩
  | cons I Is ih =>
    obtain ⟨⟨hdvd, -⟩, hfit, hrest⟩ := hfits
    have hI := h I List.mem_cons_self
    obtain ⟨hs', hle⟩ := hs.after (hI.slot hptr) (hdvd.trans hroom)
      (hfit.imp_right (·.trans (next_le hrest)))
    obtain ⟨hend, insns', hemit', hexec'⟩ :=
      ih (fun J hJ => h J (List.mem_cons_of_mem _ hJ)) hs' hrest
    obtain ⟨insns, size, hemit, hexec, hsize⟩ :=
      emitAll_cons (w := w) hptr hbytes hI (hs.kept_le.trans_lt hlt) Is
    refine ⟨hend, insns ++ insns', ?_, fun sp => ?_⟩
    · rw [hemit, hsize (hle.trans_lt hlt), hemit']
      rfl
    · obtain ⟨sp', hsp, hsp'⟩ := hexec sp insns'
      rw [hsp, hsp' (hle.trans_lt hlt), hexec']
      rfl

/-! ### The variables of one lane -/

theorem le_offset (s : Stack) : ∀ g ∈ segments s vs, s.ptr ≤ g.offset := by
  induction vs generalizing s with
  | nil => exact fun g hg => absurd hg List.not_mem_nil
  | cons v vs ih =>
    intro g hg
    rcases List.mem_cons.mp hg with rfl | hg
    · exact Nat.le_add_right _ _
    · exact ((Nat.le_add_right _ _).trans (Nat.le_add_right _ _)).trans (ih (v.after s) g hg)

/-- A variable with an element stands behind the next one's start and in the part of the lane. -/
theorem Fits.between (h : Fits room s vs) :
    ∀ g ∈ segments s vs, g.size ≠ 0 → next room s vs ≤ g.offset ∧ g.finish ≤ room := by
  induction vs generalizing s with
  | nil => exact fun g hg => absurd hg List.not_mem_nil
  | cons v vs ih =>
    obtain ⟨-, hfit, hrest⟩ := h
    rw [next]
    intro g hg hne
    rcases List.mem_cons.mp hg with rfl | hg
    · rw [if_neg hne]
      exact ⟨le_rfl, (hfit.resolve_left hne).trans (next_le hrest)⟩
    · obtain ⟨hle, hfinish⟩ := ih hrest g hg hne
      refine ⟨?_, hfinish⟩
      split_ifs with h0
      · exact hle
      · exact (Nat.le_add_right _ _).trans ((hfit.resolve_left h0).trans hle)

theorem Fits.pairwise (h : Fits room s vs) :
    (segments s vs).Pairwise fun g g' => g.size ≠ 0 → g'.size ≠ 0 → g.finish ≤ g'.offset := by
  induction vs generalizing s with
  | nil => exact List.Pairwise.nil
  | cons v vs ih =>
    obtain ⟨-, hfit, hrest⟩ := h
    refine List.pairwise_cons.mpr ⟨fun g hg hne hne' => ?_, ih hrest⟩
    exact (hfit.resolve_left hne).trans (hrest.between g hg hne').1

theorem next_mem (room : ℕ) (s : Stack) :
    next room s vs = room ∨ ∃ g ∈ segments s vs, g.size ≠ 0 ∧ g.offset = next room s vs := by
  induction vs generalizing s with
  | nil => exact .inl rfl
  | cons v vs ih =>
    rw [next]
    split_ifs with h0
    · refine (ih (v.after s)).imp_right ?_
      rintro ⟨g, hg, hnext⟩
      exact ⟨g, List.mem_cons_of_mem _ hg, hnext⟩
    · exact .inr ⟨_, List.mem_cons_self, h0, rfl⟩

theorem ranges_eq (sp : BitVec w) (s : Stack) :
    ranges vs ((segments s vs).map fun g => sp + BitVec.ofNat w g.offset) =
      (segments s vs).map fun g => ⟨(sp + BitVec.ofNat w g.offset).toNat, g.size⟩ := by
  induction vs generalizing s with
  | nil => rfl
  | cons v vs ih => exact congrArg _ (ih (v.after s))

/-- An alignment divides the numbers of addresses. -/
theorem Slot.Proper.dvd_toNat (hw : 32 ≤ w) (h : v.Proper) (sp : BitVec w) (n : ℕ) :
    v.align ∣ (sp + BitVec.ofNat w n).toNat ↔ v.align ∣ sp.toNat + n := by
  obtain ⟨k, hk, halign⟩ := h.align
  rw [BitVec.toNat_add, BitVec.toNat_ofNat, Nat.add_mod_mod, halign,
    Nat.dvd_mod_iff (pow_dvd_pow 2 (by omega))]

theorem Fits.aligned (hw : 32 ≤ w) (h : ∀ v ∈ vs, v.Proper) (hroom : 128 ∣ room) (hs : s.Inv room)
    {sp : BitVec w} (hsp : 128 ∣ sp.toNat) (hfits : Fits room s vs) :
    Aligned vs ((segments s vs).map fun g => sp + BitVec.ofNat w g.offset) := by
  induction vs generalizing s with
  | nil => exact .nil
  | cons v vs ih =>
    obtain ⟨⟨hdvd, hskew⟩, hfit, hrest⟩ := hfits
    have hv := h v List.mem_cons_self
    have hs' := (hs.after hv (hdvd.trans hroom) (hfit.imp_right (·.trans (next_le hrest)))).1
    refine .cons ((hv.dvd_toNat hw sp _).mpr ?_)
      (ih (fun v hv => h v (List.mem_cons_of_mem _ hv)) hs' hrest)
    rw [hs.offset_eq hv]
    exact Nat.dvd_add (hdvd.trans hsp) (Nat.dvd_add hskew (Layout.dvd_roundUp hv.align_pos))

theorem bytes_eq_empty {a n : ℕ} (h : n = 0) : Segment.bytes ⟨a, n⟩ = ∅ := by
  rw [Segment.bytes, Segment.finish, h, Nat.add_zero, Set.Ico_self]

/-- The variables of a lane whose part starts at a multiple of 128. -/
theorem Fits.placed (hw : 32 ≤ w) (h : ∀ v ∈ vs, v.Proper) (hroom : 128 ∣ room) {sp : BitVec w}
    (hsp : 128 ∣ sp.toNat) (hwrap : sp.toNat + room < 2 ^ w) (hs : s.Inv room)
    (hfits : Fits room s vs) :
    Placed vs ((segments s vs).map fun g => sp + BitVec.ofNat w g.offset) ⟨sp.toNat, room⟩ := by
  have haddr {g : Segment} (hg : g.finish ≤ room) :
      (sp + BitVec.ofNat w g.offset).toNat = sp.toNat + g.offset := by
    have hle : g.offset ≤ g.finish := Nat.le_add_right _ _
    rw [BitVec.toNat_add, BitVec.toNat_ofNat, Nat.add_mod_mod, Nat.mod_eq_of_lt (by omega)]
  have hbetween := hfits.between
  refine ⟨hfits.aligned hw h hroom hs hsp, ?_, ?_⟩
  · rw [ranges_eq, List.pairwise_map]
    refine hfits.pairwise.imp_of_mem fun {g g'} hg hg' hlt => ?_
    by_cases h0 : g.size = 0
    · rw [bytes_eq_empty h0]
      exact Set.empty_disjoint _
    by_cases h0' : g'.size = 0
    · rw [bytes_eq_empty h0']
      exact Set.disjoint_empty _
    refine Segment.disjoint_bytes ?_
    rw [Segment.finish, haddr (hbetween g hg h0).2, haddr (hbetween g' hg' h0').2, Nat.add_assoc]
    exact Nat.add_le_add_left (hlt h0 h0') _
  · rw [ranges_eq]
    intro r hr
    obtain ⟨g, hg, rfl⟩ := List.mem_map.mp hr
    by_cases h0 : g.size = 0
    · rw [bytes_eq_empty h0]
      exact Set.empty_subset _
    · have hfinish := (hbetween g hg h0).2
      rw [haddr hfinish]
      refine Set.Ico_subset_Ico (Nat.le_add_right _ _) ?_
      rw [Segment.finish, Nat.add_assoc]
      exact Nat.add_le_add_left hfinish _

/-- Back from the first two lanes. -/
theorem fits_of_placed (hw : 32 ≤ w) (hptr : ptrSize < 2 ^ 31) (hbytes : 8 ∣ ptrSize)
    (h : ∀ I ∈ Is, I.Proper ptrSize) {j : ℕ} (hj : j ≤ 8) {insns : List Insn}
    {stackSize : BitVec 32} (hs : s.Inv (128 * 3 ^ j))
    (hemit : emitAll ptrSize Is (BitVec.ofNat 32 s.kept) = some (insns, stackSize))
    (hfirst : Placed (Is.map (AllocaInst.slot ptrSize)) (exec (0#w + BitVec.ofNat w s.ptr) insns)
      ⟨0, 128 * 3 ^ j⟩)
    (hsecond : Aligned (Is.map (AllocaInst.slot ptrSize))
      (exec (BitVec.ofNat w (128 * 3 ^ j) + BitVec.ofNat w s.ptr) insns)) :
    Fits (128 * 3 ^ j) s (Is.map (AllocaInst.slot ptrSize)) := by
  have hpow : 3 ^ j ≤ 3 ^ 8 := Nat.pow_le_pow_right (by decide) hj
  have hpow' : 2 ^ 32 ≤ 2 ^ w := Nat.pow_le_pow_right (by decide) hw
  induction Is generalizing s insns with
  | nil => trivial
  | cons I Is ih =>
    have hproper : ∀ J ∈ Is, J.Proper ptrSize := fun J hJ => h J (List.mem_cons_of_mem _ hJ)
    have hv := (h I List.mem_cons_self).slot hptr
    have hkept := hs.kept_le
    obtain ⟨insns', size, hemit', hexec, hsize⟩ :=
      emitAll_cons (w := w) (s := s) hptr hbytes (h I List.mem_cons_self) (by omega) Is
    rw [hemit'] at hemit
    obtain ⟨⟨rest, last⟩, hrest, heq⟩ := Option.map_eq_some_iff.mp hemit
    obtain ⟨rfl, rfl⟩ := Prod.mk.inj heq
    obtain ⟨sp, hsp, hnext⟩ := hexec 0#w rest
    obtain ⟨sp', hsp', hnext'⟩ := hexec (BitVec.ofNat w (128 * 3 ^ j)) rest
    rw [hsp] at hfirst
    rw [hsp'] at hsecond
    obtain ⟨haligned, hdisjoint, hinside⟩ := hfirst
    set v := I.slot ptrSize with hslot
    -- the alignment divides the addresses of both lanes, so it divides what is between them
    obtain ⟨hone, haligned⟩ := List.forall₂_cons.mp haligned
    obtain ⟨htwo, hsecond⟩ := List.forall₂_cons.mp hsecond
    rw [hv.dvd_toNat hw] at hone htwo
    rw [BitVec.toNat_ofNat, Nat.zero_mod, Nat.zero_add] at hone
    rw [BitVec.toNat_ofNat, Nat.mod_eq_of_lt (by omega), Nat.dvd_add_left hone] at htwo
    have hdvd : v.align ∣ 128 := by
      obtain ⟨k, -, halign⟩ := hv.align
      rw [halign] at htwo ⊢
      exact (Nat.Coprime.pow k j (by decide : Nat.Coprime 2 3)).dvd_of_dvd_mul_right htwo
    have hoffset := hs.offset_eq hv
    have hskew : v.align ∣ s.ptr - s.kept := by
      rw [hoffset] at hone
      exact (Nat.dvd_add_left (Layout.dvd_roundUp hv.align_pos)).mp hone
    have hstart := hs.start_le hv htwo
    have hptr_le := hs.ptr_le
    have haddr : (0#w + BitVec.ofNat w (v.offset s)).toNat = v.offset s := by
      rw [BitVec.zero_add, BitVec.toNat_ofNat, Nat.mod_eq_of_lt (by omega)]
    obtain ⟨hapart, hdisjoint⟩ := List.pairwise_cons.mp hdisjoint
    have hfit : v.size = 0 ∨ v.offset s + v.size ≤ 128 * 3 ^ j := by
      rcases Nat.eq_zero_or_pos v.size with hz | hpos
      · exact .inl hz
      · have hsub : Segment.bytes ⟨(0#w + BitVec.ofNat w (v.offset s)).toNat, v.size⟩ ⊆
            Segment.bytes ⟨0, 128 * 3 ^ j⟩ := hinside _ List.mem_cons_self
        rw [haddr] at hsub
        have hend := ((Set.Ico_subset_Ico_iff (Nat.lt_add_of_pos_right hpos)).mp hsub).2
        exact .inr (hend.trans_eq (Nat.zero_add _))
    obtain ⟨hs', hle⟩ := hs.after hv htwo hfit
    rw [hsize (by omega)] at hrest
    rw [hnext (by omega)] at haligned hdisjoint hapart hinside
    rw [hnext' (by omega)] at hsecond
    have hrec := ih hproper hs' hrest
      ⟨haligned, hdisjoint, fun g hg => hinside g (List.mem_cons_of_mem _ hg)⟩ hsecond
    refine ⟨⟨hdvd, hskew⟩, hfit.imp_right fun hfit => ?_, hrec⟩
    -- the next variable is apart from this one and starts behind it
    obtain ⟨-, insns'', hemit'', hexec''⟩ :=
      hrec.emitAll_eq (w := w) hptr hbytes hproper (Nat.dvd_mul_right _ _) (by omega) hs'
    obtain ⟨rfl, -⟩ := Prod.mk.inj (Option.some_inj.mp (hrest.symm.trans hemit''))
    rw [hexec''] at hapart
    rcases next_mem (128 * 3 ^ j) (v.after s) with hlast | ⟨g, hg, hne, hlast⟩
    · rwa [hlast]
    · have hend := (hrec.between g hg hne).2
      have hlt : g.offset < g.finish := Nat.lt_add_of_pos_right (Nat.pos_of_ne_zero hne)
      have hfar : Disjoint (Segment.bytes ⟨(0#w + BitVec.ofNat w (v.offset s)).toNat, v.size⟩)
        (Segment.bytes ⟨(0#w + BitVec.ofNat w g.offset).toNat, g.size⟩) :=
        hapart _ ((congrArg (_ ∈ ·) (ranges_eq 0#w _)).mpr (List.mem_map.mpr ⟨g, hg, rfl⟩))
      rw [haddr, BitVec.zero_add, BitVec.toNat_ofNat, Nat.mod_eq_of_lt (by omega)] at hfar
      rw [← hlast]
      by_contra hover
      exact Set.disjoint_left.mp hfar
        ⟨(Nat.le_add_right _ _).trans (le_offset _ g hg), not_le.mp hover⟩ ⟨le_rfl, hlt⟩

/-! ### The stack of a lane -/

/-- The sizes that the loop goes through. -/
theorem iterate_mul (i : ℕ) : (· * 3)^[i] (128 : BitVec 32) = BitVec.ofNat 32 (128 * 3 ^ i) := by
  induction i with
  | zero => rfl
  | succ i ih =>
    rw [Function.iterate_succ_apply', ih, pow_succ, ← Nat.mul_assoc, BitVec.ofNat_mul _ 3]
    rfl

theorem pow_lt {i : ℕ} (h : i ≤ 9) : 128 * 3 ^ i < 2 ^ 32 :=
  (Nat.mul_le_mul_left 128 (Nat.pow_le_pow_right (by decide) h)).trans_lt (by decide)

/-- The least of the sizes that is large enough. -/
theorem buildStack_eq {t j : ℕ} (hj : j ≤ 8) (ht : t ≤ 128 * 3 ^ j)
    (hlt : ∀ i < j, 128 * 3 ^ i < t) {fuel : ℕ} (hfuel : 8 < fuel) :
    buildStack fuel (BitVec.ofNat 32 t) = some (BitVec.ofNat 32 (128 * 3 ^ j)) := by
  have hmax := pow_lt (hj.trans (by decide : 8 ≤ 9))
  rw [buildStack, Iterate.whileDo_eq (n := j) ?_ ?_ (by omega), iterate_mul]
  · intro i hi
    rw [iterate_mul]
    refine decide_eq_true (BitVec.lt_def.mpr ?_)
    rw [toNat_ofNat (pow_lt (by omega)), toNat_ofNat (by omega)]
    exact hlt i hi
  · rw [iterate_mul]
    refine decide_eq_false fun hgo => absurd (BitVec.lt_def.mp hgo) (not_lt.mpr ?_)
    rwa [toNat_ofNat hmax, toNat_ofNat (by omega)]

/-- A size of the loop, and no size before it is large enough. -/
theorem buildStack_some {stackSize size : BitVec 32} {fuel : ℕ}
    (h : buildStack fuel stackSize = some size) : ∃ j, size = BitVec.ofNat 32 (128 * 3 ^ j) ∧
      stackSize ≤ size ∧ ∀ i < j, i ≤ 9 → 128 * 3 ^ i < stackSize.toNat := by
  obtain ⟨j, hsize, hgo, hstop⟩ := Iterate.whileDo_some h
  rw [iterate_mul] at hsize hstop
  refine ⟨j, hsize, hsize ▸ BitVec.not_lt.mp (of_decide_eq_false hstop), fun i hi hi' => ?_⟩
  have hlt := of_decide_eq_true (hgo i hi)
  rwa [iterate_mul, BitVec.lt_def, toNat_ofNat (pow_lt hi')] at hlt

theorem simdWidth_le (simd16 : Bool) : simdWidth simd16 ≤ 16 := by
  unfold simdWidth
  split_ifs <;> decide

theorem emitStackPointer_toNat {simd16 : Bool} (size : BitVec 32) {thread lane : ℕ} (hw : 32 ≤ w)
    (hthread : thread < 512) (hlane : lane < simdWidth simd16) :
    (emitStackPointer w simd16 size thread lane).toNat =
      (thread * simdWidth simd16 + lane) * size.toNat % 2 ^ 32 := by
  have hsimd := simdWidth_le simd16
  have hid : BitVec.ofNat 16 thread &&& 0x1ff = BitVec.ofNat 16 thread := by
    refine BitVec.eq_of_toNat_eq ?_
    have hlit : (0x1ff : BitVec 16).toNat = 2 ^ 9 - 1 := rfl
    rw [BitVec.toNat_and, hlit, Nat.and_two_pow_sub_one_eq_mod, BitVec.toNat_ofNat]
    omega
  have hthread' : thread * simdWidth simd16 ≤ 511 * 16 := Nat.mul_le_mul (by omega) hsimd
  have hpow : 2 ^ 32 ≤ 2 ^ w := Nat.pow_le_pow_right (by decide) hw
  rw [emitStackPointer, hid, ← BitVec.ofNat_mul]
  simp only [BitVec.toNat_setWidth, BitVec.toNat_mul, BitVec.toNat_add, BitVec.toNat_ofNat]
  rw [Nat.mod_eq_of_lt (by omega : lane < 2 ^ 16), Nat.mod_eq_of_lt (by omega : lane < 2 ^ 32),
    Nat.mod_eq_of_lt (by omega : thread * simdWidth simd16 < 2 ^ 16),
    Nat.mod_eq_of_lt (by omega : thread * simdWidth simd16 < 2 ^ 32),
    Nat.mod_eq_of_lt (by omega : lane + thread * simdWidth simd16 < 2 ^ 32),
    Nat.add_comm lane, Nat.mul_comm size.toNat,
    Nat.mod_eq_of_lt ((Nat.mod_lt _ (Nat.two_pow_pos 32)).trans_le hpow)]

/-! ### All lanes -/

/-- Parts with different numbers. -/
theorem disjoint_parts {n n' : ℕ} (size : ℕ) (h : n ≠ n') :
    Disjoint (Segment.bytes ⟨n * size, size⟩) (Segment.bytes ⟨n' * size, size⟩) := by
  have hlt {n n' : ℕ} (hn : n < n') : n * size + size ≤ n' * size := by
    rw [← Nat.succ_mul]
    exact Nat.mul_le_mul_right size hn
  rcases Nat.lt_or_gt_of_ne h with hn | hn
  · exact Segment.disjoint_bytes (s := ⟨n * size, size⟩) (t := ⟨n' * size, size⟩) (hlt hn)
  · exact (Segment.disjoint_bytes (s := ⟨n' * size, size⟩) (t := ⟨n * size, size⟩) (hlt hn)).symm

theorem lane_injective {W thread lane thread' lane' : ℕ} (hl : lane < W) (hl' : lane' < W)
    (h : thread * W + lane = thread' * W + lane') : thread = thread' ∧ lane = lane' := by
  have hdiv {t l : ℕ} (hlt : l < W) : (t * W + l) / W = t := by
    rw [Nat.mul_comm, Nat.mul_add_div (by omega), Nat.div_eq_of_lt hlt, Nat.add_zero]
  have hthread : thread = thread' :=
    (hdiv hl).symm.trans ((congrArg (· / W) h).trans (hdiv hl'))
  subst hthread
  exact ⟨rfl, Nat.add_left_cancel h⟩

/-- If the parts of all lanes are apart from the first one, the last lane starts before `2 ^ 32`:
the first multiple of the size behind that starts in the part of the first lane. -/
theorem lanes_lt {simd16 : Bool} {size : BitVec 32} (hw : 32 ≤ w)
    (h : ∀ thread < 512, ∀ lane < simdWidth simd16, (0, 0) ≠ (thread, lane) →
      Disjoint (lanePart w simd16 size 0 0).bytes (lanePart w simd16 size thread lane).bytes) :
    (512 * simdWidth simd16 - 1) * size.toNat < 2 ^ 32 := by
  by_contra hge
  have hex : ∃ m, 2 ^ 32 ≤ m * size.toNat := ⟨_, not_lt.mp hge⟩
  have hfind : 2 ^ 32 ≤ Nat.find hex * size.toNat := Nat.find_spec hex
  have hle : Nat.find hex ≤ 512 * simdWidth simd16 - 1 := Nat.find_min' hex (not_lt.mp hge)
  have hpos : 0 < Nat.find hex := Nat.pos_of_ne_zero fun h0 => by
    rw [h0, Nat.zero_mul] at hfind
    exact absurd hfind (by decide)
  have hpred : (Nat.find hex - 1) * size.toNat < 2 ^ 32 :=
    not_le.mp (Nat.find_min hex (Nat.sub_one_lt hpos.ne'))
  have hsize := size.isLt
  generalize Nat.find hex = m at *
  have hW : 0 < simdWidth simd16 := by
    unfold simdWidth
    split_ifs <;> decide
  have hsum := Nat.div_add_mod' m (simdWidth simd16)
  rw [Nat.sub_one_mul] at hpred
  have hthread : m / simdWidth simd16 < 512 := Nat.div_lt_of_lt_mul (by rw [Nat.mul_comm]; omega)
  have hlane := Nat.mod_lt m hW
  have hzero := emitStackPointer_toNat size hw (by decide : 0 < 512) hW
  have haddr := emitStackPointer_toNat size hw hthread hlane
  rw [hsum, Nat.mod_eq_sub_mod hfind,
    Nat.mod_eq_of_lt (by omega : m * size.toNat - 2 ^ 32 < 2 ^ 32)] at haddr
  rw [Nat.zero_mul, Nat.zero_add, Nat.zero_mul, Nat.zero_mod] at hzero
  have hdisjoint := h _ hthread _ hlane fun heq => by
    have := Prod.mk.inj heq
    rw [← this.1, ← this.2] at hsum
    omega
  rw [lanePart, lanePart, hzero, haddr] at hdisjoint
  have hmem : m * size.toNat - 2 ^ 32 < size.toNat := by omega
  exact Set.disjoint_left.mp hdisjoint
    ⟨Nat.zero_le _, hmem.trans_eq (Nat.zero_add _).symm⟩
    ⟨le_rfl, Nat.lt_add_of_pos_right ((Nat.zero_le _).trans_lt hmem)⟩

theorem turns_le (simd16 : Bool) : turns simd16 ≤ 8 := by
  cases simd16 <;> decide

theorem simdWidth_turns (simd16 : Bool) :
    512 * simdWidth simd16 * (128 * 3 ^ turns simd16) < 2 ^ 32 ∧
      2 ^ 32 ≤ (512 * simdWidth simd16 - 1) * (128 * 3 ^ (turns simd16 + 1)) := by
  cases simd16 <;> decide

theorem Sound.privateLayout {simd16 : Bool} (hw : 32 ≤ w) (hptr : ptrSize < 2 ^ 31)
    (hbytes : 8 ∣ ptrSize) (h : ∀ I ∈ Is, I.Proper ptrSize) (hsound : Sound ptrSize simd16 Is) :
    PrivateLayout ptrSize w simd16 Is := by
  obtain ⟨j, hj, hleast, hfits⟩ := hsound
  have hj8 := hj.trans (turns_le simd16)
  have hmax := pow_lt (hj8.trans (by decide : 8 ≤ 9))
  have hpow : 2 ^ 32 ≤ 2 ^ w := Nat.pow_le_pow_right (by decide) hw
  have hdvd : 128 ∣ 128 * 3 ^ j := Nat.dvd_mul_right _ _
  have hlimit : 128 * 3 ^ j ≤ 128 * 3 ^ turns simd16 :=
    Nat.mul_le_mul_left _ (Nat.pow_le_pow_right (by decide) hj)
  have hlt : 128 * 3 ^ j < 2 ^ 31 :=
    (Nat.mul_le_mul_left 128 (Nat.pow_le_pow_right (by decide) hj8)).trans_lt (by decide)
  obtain ⟨hend, insns, hemit, hexec⟩ :=
    hfits.emitAll_eq (w := w) hptr hbytes h hdvd hlt (Stack.inv_zero _)
  have hproper : ∀ v ∈ Is.map (AllocaInst.slot ptrSize), v.Proper :=
    List.forall_mem_map.mpr fun I hI => (h I hI).slot hptr
  -- the place of a lane among all lanes
  have hplace {thread lane : ℕ} (ht : thread < 512) (hl : lane < simdWidth simd16) :
      (thread * simdWidth simd16 + lane) * (128 * 3 ^ j) + 128 * 3 ^ j < 2 ^ 32 := by
    have hlast : thread * simdWidth simd16 + lane + 1 ≤ 512 * simdWidth simd16 := by
      have hmul : (thread + 1) * simdWidth simd16 ≤ 512 * simdWidth simd16 :=
        Nat.mul_le_mul_right _ ht
      rw [Nat.succ_mul] at hmul
      omega
    rw [← Nat.succ_mul]
    exact (Nat.mul_le_mul hlast hlimit).trans_lt (simdWidth_turns simd16).1
  have hsp {thread lane : ℕ} (ht : thread < 512) (hl : lane < simdWidth simd16) :
      (emitStackPointer w simd16 (BitVec.ofNat 32 (128 * 3 ^ j)) thread lane).toNat =
        (thread * simdWidth simd16 + lane) * (128 * 3 ^ j) := by
    rw [emitStackPointer_toNat _ hw ht hl, toNat_ofNat hmax, Nat.mod_eq_of_lt]
    exact (Nat.le_add_right _ _).trans_lt (hplace ht hl)
  refine ⟨insns, _, _, hemit, ⟨8, fun fuel => buildStack_eq hj8 hend hleast⟩,
    fun thread ht lane hl => ⟨?_, ?_⟩⟩
  · have hzero := hexec (emitStackPointer w simd16 (BitVec.ofNat 32 (128 * 3 ^ j)) thread lane)
    rw [BitVec.add_zero] at hzero
    rw [lanePart, toNat_ofNat hmax, hzero]
    refine hfits.placed hw hproper hdvd ?_ ?_ (Stack.inv_zero _)
    · rw [hsp ht hl]
      exact hdvd.mul_left _
    · rw [hsp ht hl]
      exact (hplace ht hl).trans_le hpow
  · intro thread' ht' lane' hl' hne
    rw [lanePart, lanePart, hsp ht hl, hsp ht' hl', toNat_ofNat hmax]
    refine disjoint_parts _ fun hsame => hne ?_
    obtain ⟨rfl, rfl⟩ := lane_injective hl hl' hsame
    rfl

/-- All lanes of all threads have their variables aligned and apart just if the allocas fit. -/
theorem privateStack_layout_iff {simd16 : Bool} (hw : 32 ≤ w) (hptr : ptrSize < 2 ^ 31)
    (hbytes : 8 ∣ ptrSize) (h : ∀ I ∈ Is, I.Proper ptrSize) :
    PrivateLayout ptrSize w simd16 Is ↔ Sound ptrSize simd16 Is := by
  refine ⟨?_, Sound.privateLayout hw hptr hbytes h⟩
  rintro ⟨insns, stackSize, size, hemit, ⟨n, hbuild⟩, hlanes⟩
  obtain ⟨j, hsize, hle, hbefore⟩ := buildStack_some (hbuild (n + 1) (Nat.lt_succ_self n))
  have hW : 1 < simdWidth simd16 := by
    unfold simdWidth
    split_ifs <;> decide
  have hlast := lanes_lt hw (hlanes 0 (by decide) 0 (by omega)).2
  have hturns := turns_le simd16
  -- a size behind the last turn is too large for the lanes
  have hj : j ≤ turns simd16 := by
    by_contra hj
    have hge : 128 * 3 ^ (turns simd16 + 1) ≤ size.toNat := by
      rcases Nat.lt_or_ge (turns simd16 + 1) j with hlt | hge
      · exact (hbefore _ hlt (by omega)).le.trans hle
      · have heq : j = turns simd16 + 1 := by omega
        rw [hsize, heq, toNat_ofNat (pow_lt (by omega))]
    exact absurd hlast (not_lt.mpr ((simdWidth_turns simd16).2.trans (Nat.mul_le_mul_left _ hge)))
  have hmax := pow_lt (by omega : j ≤ 9)
  subst hsize
  have hfirst := (hlanes 0 (by decide) 0 (by omega)).1
  have hsecond := (hlanes 0 (by decide) 1 hW).1.aligned
  have hzero : emitStackPointer w simd16 (BitVec.ofNat 32 (128 * 3 ^ j)) 0 0 =
      0#w + BitVec.ofNat w 0 := by
    refine BitVec.eq_of_toNat_eq ?_
    rw [emitStackPointer_toNat _ hw (by decide) (by omega)]
    simp
  have hone : emitStackPointer w simd16 (BitVec.ofNat 32 (128 * 3 ^ j)) 0 1 =
      BitVec.ofNat w (128 * 3 ^ j) + BitVec.ofNat w 0 := by
    refine BitVec.eq_of_toNat_eq ?_
    have hpow : 2 ^ 32 ≤ 2 ^ w := Nat.pow_le_pow_right (by decide) hw
    rw [emitStackPointer_toNat _ hw (by decide) hW, toNat_ofNat hmax, Nat.zero_mul, Nat.zero_add,
      Nat.one_mul, Nat.mod_eq_of_lt hmax, BitVec.add_zero, BitVec.toNat_ofNat,
      Nat.mod_eq_of_lt (hmax.trans_le hpow)]
  rw [lanePart, hzero, toNat_ofNat hmax] at hfirst
  rw [hone] at hsecond
  have hfits := fits_of_placed (s := ⟨0, 0⟩) hw hptr hbytes h (by omega : j ≤ 8) (Stack.inv_zero _)
    hemit (by simpa using hfirst) hsecond
  refine ⟨j, hj, fun i hi => ?_, hfits⟩
  -- the size that is kept did not wrap
  have hlt : 128 * 3 ^ j < 2 ^ 31 :=
    (Nat.mul_le_mul_left 128 (Nat.pow_le_pow_right (by decide) (by omega : j ≤ 8))).trans_lt
      (by decide)
  obtain ⟨hend, _, hemit', -⟩ := hfits.emitAll_eq (w := w) hptr hbytes h (Nat.dvd_mul_right _ _) hlt
    (Stack.inv_zero _)
  have hkept := (Prod.mk.inj (Option.some_inj.mp (hemit.symm.trans hemit'))).2
  have hbefore' := hbefore i hi (by omega)
  rwa [hkept, toNat_ofNat (by omega)] at hbefore'

end

/-- A struct of an `int` and a byte, an `int`, three bytes in an array allocation, a byte. -/
def structAndBytes : List AllocaInst :=
  [⟨.struct [.scalar (.integer 32), .scalar (.integer 8)], none⟩, ⟨.scalar (.integer 32), none⟩,
    ⟨.scalar (.integer 8), some 3⟩, ⟨.scalar (.integer 8), none⟩]

theorem privateStack_structAndBytes : PrivateLayout 32 32 true structAndBytes := by
  refine (privateStack_layout_iff le_rfl (by decide) (by decide) fun I hI => ?_).mpr
    ⟨0, by decide, fun i hi => absurd hi (Nat.not_lt_zero i), ?_⟩
  · fin_cases hI
    · exact ⟨⟨⟨⟨⟨by decide, by decide⟩, by decide⟩, ⟨⟨by decide, by decide⟩, by decide⟩, trivial⟩,
        by decide⟩, ⟨trivial, by decide, trivial, by decide, trivial⟩, ⟨2, rfl⟩, by decide⟩
    · exact ⟨⟨⟨by decide, by decide⟩, by decide⟩, trivial, ⟨2, rfl⟩, by decide⟩
    · exact ⟨⟨⟨by decide, by decide⟩, by decide⟩, trivial, ⟨0, rfl⟩, by decide⟩
    · exact ⟨⟨⟨by decide, by decide⟩, by decide⟩, trivial, ⟨0, rfl⟩, by decide⟩
  · exact ⟨by decide, by decide, by decide, by decide, by decide, by decide, by decide, by decide,
      trivial⟩

/-- Three bytes in an array allocation, then an `int`. -/
def bytesAndInt : List AllocaInst :=
  [⟨.scalar (.integer 8), some 3⟩, ⟨.scalar (.integer 32), none⟩]

theorem privateStack_bytesAndInt : ¬ PrivateLayout 32 32 true bytesAndInt := by
  rintro ⟨insns, stackSize, size, hemit, -, hlanes⟩
  have hinsns : insns = [.dst, .add 4, .add 1, .dst, .add 4] :=
    congrArg Prod.fst (Option.some_inj.mp hemit.symm)
  have hsp : emitStackPointer 32 true size 0 0 = 0 := by
    rw [emitStackPointer]
    exact congrArg (BitVec.setWidth 32) BitVec.mul_zero
  have haligned := (hlanes 0 (by decide) 0 (by decide)).1.aligned
  rw [hsp, hinsns] at haligned
  -- the step after three bytes is 1, but the stack pointer has moved by 4
  cases haligned with
  | cons _ hrest =>
    cases hrest with
    | cons hint _ => exact absurd hint (by decide)

end PrivateStack

end Backend
