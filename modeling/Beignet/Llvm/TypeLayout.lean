/-
The sizes and alignments that the backend gives to the types of LLVM: `getPadding`,
`getAlignmentByte`, `getTypeBitSize` and `getTypeByteSize` of `llvm_passes.cpp`, in their 32 bits.

A computation fails where it divides by 0.  The size of an aggregate leaves out the padding behind
its last member or element; whoever places something behind it adds padding of his own.

* `getAlignmentByte_eq`, `getTypeBitSize_eq` — the functions without their 32 bits, for types of
  less than 2^28 bytes.
-/
import Beignet.Lib.Layout

namespace Llvm

namespace TypeLayout

open Layout (roundUp)

/-- The types that may be the element of a vector. -/
inductive Scalar where
  | integer (bitWidth : ℕ)
  | half | float | double | pointer

inductive Ty where
  | scalar (s : Scalar)
  | pointer (pointee : Ty)
  | vector (n : ℕ) (s : Scalar)
  | array (n : ℕ) (e : Ty)
  | struct (fields : List Ty)

/-! ### The functions -/

section

variable (ptrSize : ℕ)

def Scalar.bits : Scalar → ℕ
  | integer bitWidth => if bitWidth = 1 then 16 else bitWidth
  | half => 16
  | float => 32
  | double => 64
  | pointer => ptrSize

/-- Three elements take the room of four. -/
def elemNum (n : ℕ) : ℕ := if n = 3 then 4 else n

def getPadding (offset align : BitVec 32) : Option (BitVec 32) :=
  if align = 0 then none else some ((align - offset.srem align).srem align)

def umax (a b : BitVec 32) : BitVec 32 := if a < b then b else a

mutual

def getAlignmentByte : Ty → BitVec 32
  | .scalar s => BitVec.ofNat 32 (s.bits ptrSize) / 8
  | .pointer _ => BitVec.ofNat 32 ptrSize / 8
  | .vector n s => BitVec.ofNat 32 (elemNum n) * (BitVec.ofNat 32 (s.bits ptrSize) / 8)
  | .array _ e => getAlignmentByte e
  | .struct fields => maxAlignmentByte 0 fields

/-- The loop over the members. -/
def maxAlignmentByte (maxa : BitVec 32) : List Ty → BitVec 32
  | [] => maxa
  | t :: ts => maxAlignmentByte (umax (getAlignmentByte t) maxa) ts

end

mutual

def getTypeBitSize : Ty → Option (BitVec 32)
  | .scalar s => some (BitVec.ofNat 32 (s.bits ptrSize))
  | .pointer _ => some (BitVec.ofNat 32 ptrSize)
  | .vector n s => some (BitVec.ofNat 32 (elemNum n) * BitVec.ofNat 32 (s.bits ptrSize))
  | .array n e => do
    let size_element ← getTypeBitSize e
    let padding ← getPadding size_element (8 * getAlignmentByte ptrSize e)
    return BitVec.ofNat 32 n * size_element + (BitVec.ofNat 32 n - 1) * padding
  | .struct fields => fieldsBitSize 0 fields

/-- The loop over the members. -/
def fieldsBitSize (size : BitVec 32) : List Ty → Option (BitVec 32)
  | [] => some size
  | t :: ts => do
    let padding ← getPadding size (8 * getAlignmentByte ptrSize t)
    let elementSize ← getTypeBitSize t
    fieldsBitSize (size + padding + elementSize) ts

end

def getTypeByteSize (t : Ty) : Option (BitVec 32) := do
  let size_bit ← getTypeBitSize ptrSize t
  if size_bit % 8 = 0 then return size_bit / 8 else none

end

/-! ### Sizes and alignments as numbers -/

section

variable (ptrSize : ℕ)

mutual

def alignOf : Ty → ℕ
  | .scalar s => s.bits ptrSize / 8
  | .pointer _ => ptrSize / 8
  | .vector n s => elemNum n * (s.bits ptrSize / 8)
  | .array _ e => alignOf e
  | .struct fields => maxAlignOf fields

def maxAlignOf : List Ty → ℕ
  | [] => 0
  | t :: ts => max (alignOf t) (maxAlignOf ts)

end

mutual

/-- What the backend takes as the size. -/
def used : Ty → ℕ
  | .scalar s => s.bits ptrSize / 8
  | .pointer _ => ptrSize / 8
  | .vector n s => elemNum n * (s.bits ptrSize / 8)
  | .array n e => (n - 1) * roundUp (used e) (alignOf ptrSize e) + if n = 0 then 0 else used e
  | .struct fields => usedEnd 0 fields

def usedEnd (offset : ℕ) : List Ty → ℕ
  | [] => offset
  | t :: ts => usedEnd (roundUp offset (alignOf ptrSize t) + used t) ts

end

mutual

/-- The size in C. -/
def cSize : Ty → ℕ
  | .scalar s => s.bits ptrSize / 8
  | .pointer _ => ptrSize / 8
  | .vector n s => elemNum n * (s.bits ptrSize / 8)
  | .array n e => n * cSize e
  | .struct fields => roundUp (cEnd 0 fields) (maxAlignOf ptrSize fields)

def cEnd (offset : ℕ) : List Ty → ℕ
  | [] => offset
  | t :: ts => cEnd (roundUp offset (alignOf ptrSize t) + cSize t) ts

end

end

/-! ### Paddings -/

theorem roundUp_sub {a b : ℕ} (hb : 0 < b) : roundUp a b - a = (b - a % b) % b := by
  have hlt := Nat.mod_lt a hb
  rw [roundUp]
  split_ifs with h
  · rw [Nat.mod_eq_of_lt (by omega : b - a % b < b)]
    omega
  · rw [not_not.mp h, Nat.sub_self, Nat.sub_zero, Nat.mod_self]

theorem roundUp_mul {k : ℕ} (a b : ℕ) : roundUp (k * a) (k * b) = k * roundUp a b := by
  rcases Nat.eq_zero_or_pos k with rfl | hk
  · simp [roundUp]
  · rw [roundUp, roundUp, Nat.mul_mod_mul_left]
    by_cases h : a % b = 0
    · simp [h]
    · have hne : k * (a % b) ≠ 0 := Nat.mul_ne_zero hk.ne' h
      rw [if_pos hne, if_pos h, Nat.mul_sub, Nat.mul_add]

theorem srem_ofNat {a b : ℕ} (ha : a < 2 ^ 31) (hb : b < 2 ^ 31) :
    (BitVec.ofNat 32 a).srem (BitVec.ofNat 32 b) = BitVec.ofNat 32 (a % b) := by
  have hmsb {n : ℕ} (h : n < 2 ^ 31) : (BitVec.ofNat 32 n).msb = false := by
    rw [BitVec.msb_eq_decide, decide_eq_false_iff_not, BitVec.toNat_ofNat]
    omega
  rw [BitVec.srem_eq, hmsb ha, hmsb hb]
  refine BitVec.eq_of_toNat_eq ?_
  have hle := Nat.mod_le a b
  simp only [BitVec.toNat_umod, BitVec.toNat_ofNat]
  rw [Nat.mod_eq_of_lt (by omega : a < 2 ^ 32), Nat.mod_eq_of_lt (by omega : b < 2 ^ 32),
    Nat.mod_eq_of_lt (by omega : a % b < 2 ^ 32)]

theorem getPadding_ofNat {o a : ℕ} (ho : o < 2 ^ 31) (ha : 0 < a) (ha' : a < 2 ^ 31) :
    getPadding (BitVec.ofNat 32 o) (BitVec.ofNat 32 a) =
      some (BitVec.ofNat 32 (roundUp o a - o)) := by
  have hne : BitVec.ofNat 32 a ≠ 0 := fun h => by
    have := congrArg BitVec.toNat h
    rw [BitVec.toNat_ofNat, Nat.mod_eq_of_lt (by omega)] at this
    exact ha.ne' this
  have hlt := Nat.mod_lt o ha
  rw [getPadding, if_neg hne, srem_ofNat ho ha', roundUp_sub ha,
    BitVec.ofNat_sub_ofNat_of_le _ _ (by omega) (by omega), srem_ofNat (by omega) ha']

/-! ### Types of moderate size -/

section

variable (ptrSize : ℕ)

/-- Whole bytes. -/
def Scalar.Whole (s : Scalar) : Prop := 0 < s.bits ptrSize ∧ 8 ∣ s.bits ptrSize

mutual

/-- All scalars are of whole bytes, and no part is of 2^28 bytes or more. -/
def WF : Ty → Prop
  | .scalar s => s.Whole ptrSize ∧ s.bits ptrSize < 2 ^ 31
  | .pointer _ => True
  | .vector n s => 0 < n ∧ s.Whole ptrSize ∧ elemNum n * s.bits ptrSize < 2 ^ 31
  | .array n e => WF e ∧ n * cSize ptrSize e < 2 ^ 28
  | .struct fields => WFs fields ∧ cSize ptrSize (.struct fields) < 2 ^ 28

def WFs : List Ty → Prop
  | [] => True
  | t :: ts => WF t ∧ WFs ts

end

mutual

/-- Nothing is padded to a multiple of 0, and no empty array leaves a padding out. -/
def Defined : Ty → Prop
  | .scalar _ | .pointer _ | .vector _ _ => True
  | .array n e => Defined e ∧ 0 < alignOf ptrSize e ∧ (n = 0 → alignOf ptrSize e ∣ used ptrSize e)
  | .struct fields => DefinedFields fields

def DefinedFields : List Ty → Prop
  | [] => True
  | t :: ts => Defined t ∧ 0 < alignOf ptrSize t ∧ DefinedFields ts

end

end

section

variable {ptrSize : ℕ}

theorem roundUp_zero (a : ℕ) : roundUp a 0 = 0 := by
  rw [roundUp, Nat.mod_zero]
  split_ifs <;> omega

theorem roundUp_eq_self {a b : ℕ} (h : b ∣ a) : roundUp a b = a :=
  if_neg (not_not.mpr (Nat.mod_eq_zero_of_dvd h))

theorem alignOf_dvd_cSize : ∀ t : Ty, alignOf ptrSize t ∣ cSize ptrSize t
  | .scalar _ | .pointer _ | .vector _ _ => dvd_rfl
  | .array n e => (alignOf_dvd_cSize e).mul_left n
  | .struct fields => by
    rcases Nat.eq_zero_or_pos (maxAlignOf ptrSize fields) with h | h
    · rw [alignOf, cSize, h, roundUp_zero]
    · exact Layout.dvd_roundUp h

mutual

theorem used_le : ∀ t : Ty, Defined ptrSize t → used ptrSize t ≤ cSize ptrSize t
  | .scalar _, _ | .pointer _, _ | .vector _ _, _ => le_rfl
  | .array 0 e, _ => by simp [used]
  | .array (n + 1) e, h => by
    have hle := used_le e h.1
    have hpad := Layout.roundUp_le_of_dvd h.2.1 hle (alignOf_dvd_cSize e)
    calc used ptrSize (.array (n + 1) e)
        = n * roundUp (used ptrSize e) (alignOf ptrSize e) + used ptrSize e := by
          rw [used, Nat.add_sub_cancel, if_neg n.succ_ne_zero]
      _ ≤ n * cSize ptrSize e + cSize ptrSize e := Nat.add_le_add (Nat.mul_le_mul_left n hpad) hle
      _ = cSize ptrSize (.array (n + 1) e) := by rw [cSize, Nat.succ_mul]
  | .struct [], _ => Nat.zero_le _
  | .struct (t :: ts), h => by
    have hpos : 0 < maxAlignOf ptrSize (t :: ts) := h.2.1.trans_le (le_max_left _ _)
    exact (usedEnd_le (t :: ts) h le_rfl).trans (Layout.le_roundUp hpos)

theorem usedEnd_le : ∀ (ts : List Ty) {a b : ℕ}, DefinedFields ptrSize ts → a ≤ b →
    usedEnd ptrSize a ts ≤ cEnd ptrSize b ts
  | [], _, _, _, hab => hab
  | t :: ts, _, _, h, hab =>
    usedEnd_le ts h.2.2 (Nat.add_le_add (Layout.roundUp_mono h.2.1 hab) (used_le t h.1))

end

theorem le_usedEnd : ∀ (ts : List Ty) {a : ℕ}, DefinedFields ptrSize ts → a ≤ usedEnd ptrSize a ts
  | [], _, _ => le_rfl
  | _ :: ts, _, h =>
    ((Layout.le_roundUp h.2.1).trans (Nat.le_add_right _ _)).trans (le_usedEnd ts h.2.2)

theorem WF.cSize_lt (hptr : ptrSize < 2 ^ 31) : ∀ t : Ty, WF ptrSize t → cSize ptrSize t < 2 ^ 28
  | .scalar s, h => Nat.div_lt_of_lt_mul h.2
  | .pointer _, _ => Nat.div_lt_of_lt_mul hptr
  | .vector n s, h => by
    obtain ⟨k, hk⟩ := h.2.1.2
    have hlt := h.2.2
    rw [cSize, hk, Nat.mul_div_cancel_left k (by decide)]
    rw [hk, Nat.mul_left_comm] at hlt
    omega
  | .array _ _, h => h.2
  | .struct _, h => h.2

mutual

theorem WF.alignOf_lt (hptr : ptrSize < 2 ^ 31) :
    ∀ t : Ty, WF ptrSize t → alignOf ptrSize t < 2 ^ 28
  | .scalar s, h => WF.cSize_lt hptr (.scalar s) h
  | .pointer e, h => WF.cSize_lt hptr (.pointer e) h
  | .vector n s, h => WF.cSize_lt hptr (.vector n s) h
  | .array _ e, h => WF.alignOf_lt hptr e h.1
  | .struct fields, h => WFs.maxAlignOf_lt hptr fields h.1

theorem WFs.maxAlignOf_lt (hptr : ptrSize < 2 ^ 31) :
    ∀ ts : List Ty, WFs ptrSize ts → maxAlignOf ptrSize ts < 2 ^ 28
  | [], _ => Nat.two_pow_pos 28
  | t :: ts, h => max_lt (WF.alignOf_lt hptr t h.1) (WFs.maxAlignOf_lt hptr ts h.2)

end

/-! ### The functions on such types -/

theorem umax_ofNat {a b : ℕ} (ha : a < 2 ^ 28) (hb : b < 2 ^ 28) :
    umax (BitVec.ofNat 32 a) (BitVec.ofNat 32 b) = BitVec.ofNat 32 (max b a) := by
  have hlt : BitVec.ofNat 32 a < BitVec.ofNat 32 b ↔ a < b := by
    rw [BitVec.lt_def, BitVec.toNat_ofNat, BitVec.toNat_ofNat, Nat.mod_eq_of_lt (by omega),
      Nat.mod_eq_of_lt (by omega)]
  rw [umax]
  split_ifs with h
  · rw [max_eq_left (hlt.mp h).le]
  · rw [max_eq_right (not_lt.mp fun hab => h (hlt.mpr hab))]

theorem ofNat_div_eight {n : ℕ} (h : n < 2 ^ 32) :
    BitVec.ofNat 32 n / 8 = BitVec.ofNat 32 (n / 8) := by
  refine BitVec.eq_of_toNat_eq ?_
  have hlit : (8 : BitVec 32).toNat = 8 := rfl
  rw [BitVec.toNat_udiv, hlit, BitVec.toNat_ofNat, BitVec.toNat_ofNat, Nat.mod_eq_of_lt h,
    Nat.mod_eq_of_lt (by omega)]

theorem eight_mul_ofNat (n : ℕ) : 8 * BitVec.ofNat 32 n = BitVec.ofNat 32 (8 * n) := by
  rw [BitVec.ofNat_mul]
  rfl

mutual

theorem getAlignmentByte_eq (hptr : ptrSize < 2 ^ 31) : ∀ t : Ty, WF ptrSize t →
    getAlignmentByte ptrSize t = BitVec.ofNat 32 (alignOf ptrSize t)
  | .scalar s, h => by
    have hlt := h.2
    rw [getAlignmentByte, ofNat_div_eight (by omega), alignOf]
  | .pointer _, _ => by rw [getAlignmentByte, ofNat_div_eight (by omega), alignOf]
  | .vector n s, h => by
    have hpos : 0 < elemNum n := by
      have := h.1
      unfold elemNum
      split_ifs <;> omega
    have hlt : s.bits ptrSize < 2 ^ 31 := (Nat.le_mul_of_pos_left _ hpos).trans_lt h.2.2
    rw [getAlignmentByte, ofNat_div_eight (by omega), alignOf, BitVec.ofNat_mul]
  | .array _ e, h => getAlignmentByte_eq hptr e h.1
  | .struct fields, h => by
    have hloop := maxAlignmentByte_eq hptr fields h.1 (Nat.two_pow_pos 28)
    rwa [Nat.zero_max] at hloop

theorem maxAlignmentByte_eq (hptr : ptrSize < 2 ^ 31) : ∀ (ts : List Ty) {m : ℕ},
    WFs ptrSize ts → m < 2 ^ 28 → maxAlignmentByte ptrSize (BitVec.ofNat 32 m) ts =
      BitVec.ofNat 32 (max m (maxAlignOf ptrSize ts))
  | [], _, _, _ => by rw [maxAlignmentByte, maxAlignOf, Nat.max_zero]
  | t :: ts, m, h, hm => by
    have hlt := WF.alignOf_lt hptr t h.1
    rw [maxAlignmentByte, getAlignmentByte_eq hptr t h.1, umax_ofNat hlt hm,
      maxAlignmentByte_eq hptr ts h.2 (max_lt hm hlt), maxAlignOf, Nat.max_assoc]

end

/-- The padding of a bit count. -/
theorem getPadding_bits {o a : ℕ} (ho : o < 2 ^ 28) (ha : 0 < a) (ha' : a < 2 ^ 28) :
    getPadding (BitVec.ofNat 32 (8 * o)) (8 * BitVec.ofNat 32 a) =
      some (BitVec.ofNat 32 (8 * (roundUp o a - o))) := by
  rw [eight_mul_ofNat, getPadding_ofNat (by omega) (by omega) (by omega), roundUp_mul, Nat.mul_sub]

theorem arrayBits_eq {n : ℕ} {e : Ty} (ha : 0 < alignOf ptrSize e)
    (hn : n = 0 → alignOf ptrSize e ∣ used ptrSize e) :
    BitVec.ofNat 32 n * BitVec.ofNat 32 (8 * used ptrSize e) + (BitVec.ofNat 32 n - 1) *
      BitVec.ofNat 32 (8 * (roundUp (used ptrSize e) (alignOf ptrSize e) - used ptrSize e)) =
      BitVec.ofNat 32 (8 * used ptrSize (.array n e)) := by
  cases n with
  | zero => simp [used, roundUp_eq_self (hn rfl)]
  | succ n =>
    have hpred : BitVec.ofNat 32 (n + 1) - 1 = BitVec.ofNat 32 n := by
      rw [BitVec.ofNat_add]
      exact BitVec.add_sub_cancel _ _
    have hle := Layout.le_roundUp (a := used ptrSize e) ha
    rw [hpred, ← BitVec.ofNat_mul, ← BitVec.ofNat_mul, ← BitVec.ofNat_add, used,
      Nat.add_sub_cancel, if_neg n.succ_ne_zero]
    congr 1
    obtain ⟨k, hk⟩ := Nat.exists_eq_add_of_le hle
    rw [hk, Nat.add_sub_cancel_left]
    ring

mutual

theorem getTypeBitSize_eq (hptr : ptrSize < 2 ^ 31) (hbytes : 8 ∣ ptrSize) :
    ∀ t : Ty, WF ptrSize t → Defined ptrSize t →
      getTypeBitSize ptrSize t = some (BitVec.ofNat 32 (8 * used ptrSize t))
  | .scalar s, h, _ => by rw [getTypeBitSize, used, Nat.mul_div_cancel' h.1.2]
  | .pointer _, _, _ => by rw [getTypeBitSize, used, Nat.mul_div_cancel' hbytes]
  | .vector n s, h, _ => by
    rw [getTypeBitSize, used, ← BitVec.ofNat_mul, Nat.mul_left_comm, Nat.mul_div_cancel' h.2.1.2]
  | .array n e, h, hd => by
    have hsize := (used_le e hd.1).trans_lt (WF.cSize_lt hptr e h.1)
    have halign := WF.alignOf_lt hptr e h.1
    rw [getTypeBitSize, getTypeBitSize_eq hptr hbytes e h.1 hd.1, getAlignmentByte_eq hptr e h.1]
    simp only [Option.bind_eq_bind, Option.bind_some, getPadding_bits hsize hd.2.1 halign]
    exact congrArg some (arrayBits_eq hd.2.1 hd.2.2)
  | .struct fields, h, hd => by
    have hend : usedEnd ptrSize 0 fields < 2 ^ 28 := (used_le (.struct fields) hd).trans_lt h.2
    exact fieldsBitSize_eq hptr hbytes fields h.1 hd hend

theorem fieldsBitSize_eq (hptr : ptrSize < 2 ^ 31) (hbytes : 8 ∣ ptrSize) :
    ∀ (ts : List Ty) {o : ℕ}, WFs ptrSize ts → DefinedFields ptrSize ts →
      usedEnd ptrSize o ts < 2 ^ 28 → fieldsBitSize ptrSize (BitVec.ofNat 32 (8 * o)) ts =
        some (BitVec.ofNat 32 (8 * usedEnd ptrSize o ts))
  | [], _, _, _, _ => rfl
  | t :: ts, o, h, hd, hend => by
    have hnext := le_usedEnd ts (a := roundUp o (alignOf ptrSize t) + used ptrSize t) hd.2.2
    have hle := Layout.le_roundUp (a := o) hd.2.1
    have hsum : 8 * o + 8 * (roundUp o (alignOf ptrSize t) - o) + 8 * used ptrSize t =
        8 * (roundUp o (alignOf ptrSize t) + used ptrSize t) := by omega
    rw [usedEnd] at hend
    have ho : o < 2 ^ 28 := by omega
    rw [fieldsBitSize, getAlignmentByte_eq hptr t h.1,
      getPadding_bits ho hd.2.1 (WF.alignOf_lt hptr t h.1),
      getTypeBitSize_eq hptr hbytes t h.1 hd.1]
    simp only [Option.bind_eq_bind, Option.bind_some, ← BitVec.ofNat_add, hsum]
    exact fieldsBitSize_eq hptr hbytes ts h.2 hd.2.2 hend

end

theorem getTypeByteSize_eq (hptr : ptrSize < 2 ^ 31) (hbytes : 8 ∣ ptrSize) {t : Ty}
    (h : WF ptrSize t) (hd : Defined ptrSize t) :
    getTypeByteSize ptrSize t = some (BitVec.ofNat 32 (used ptrSize t)) := by
  have hlt := (used_le t hd).trans_lt (WF.cSize_lt hptr t h)
  have hmod : BitVec.ofNat 32 (8 * used ptrSize t) % 8 = 0 := by
    refine BitVec.eq_of_toNat_eq ?_
    have hlit : (8 : BitVec 32).toNat = 8 := rfl
    rw [BitVec.toNat_umod, hlit, BitVec.toNat_ofNat,
      Nat.mod_eq_of_lt (by omega : 8 * used ptrSize t < 2 ^ 32), Nat.mul_mod_right]
    rfl
  rw [getTypeByteSize, getTypeBitSize_eq hptr hbytes t h hd]
  simp only [Option.bind_eq_bind, Option.bind_some, if_pos hmod, ofNat_div_eight
    (by omega : 8 * used ptrSize t < 2 ^ 32), Nat.mul_div_cancel_left _ (by decide : 0 < 8)]
  rfl

end

end TypeLayout

end Llvm
