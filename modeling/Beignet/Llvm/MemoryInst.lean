/-
Loads and stores of LLVM: `MemoryInstHelper` (`llvm_gen_backend.cpp`).

An access becomes messages of at most 16 bytes, or one of bytes with a bit cast.  The address of a
message is that of the access and an offset in bytes.
-/
import Beignet.Llvm.TypeLayout

namespace Llvm

namespace MemoryInst

inductive Family where
  | BYTE | WORD | DWORD | QWORD
  deriving DecidableEq

def getFamilySize : Family → ℕ
  | .BYTE => 1
  | .WORD => 2
  | .DWORD => 4
  | .QWORD => 8

/-- Registers: an element of the value, a constant 0, or a byte of a temporary tuple. -/
inductive Reg where
  | value (elemID : ℕ)
  | null
  | byte (elemID : ℕ)
  deriving DecidableEq

/-- What is emitted. -/
inductive Insn where
  /-- `LOAD` or `STORE` -/
  | message (type : Family) (offset : ℕ) (tuple : List Reg)
  | BITCAST (dstType srcType : Family) (dst src : List Reg)

/-- What is loaded or stored; a scalar has one element.  `undef` tells the constant elements
without a value. -/
structure Access where
  isLoad : Bool
  family : Family
  elemNum : ℕ
  dwAligned : Bool
  /-- the address space is `MEM_CONSTANT` -/
  constant : Bool
  undef : ℕ → Bool

variable (I : Access)

def elemSize : ℕ := getFamilySize I.family

theorem elemSize_pos : 0 < elemSize I := by
  rw [elemSize]
  cases I.family <;> decide

/-- The bytes of the elements. -/
theorem byte_lt {i k : ℕ} (hi : i < I.elemNum) (hk : k < elemSize I) :
    i * elemSize I + k < I.elemNum * elemSize I := by
  calc i * elemSize I + k < i * elemSize I + elemSize I := Nat.add_lt_add_left hk _
    _ = (i + 1) * elemSize I := (Nat.succ_mul _ _).symm
    _ ≤ I.elemNum * elemSize I := Nat.mul_le_mul_right _ hi

/-- Of the whole type; three elements take the room of four. -/
def getTypeByteSize : ℕ := TypeLayout.elemNum I.elemNum * elemSize I

def getValueTuple (start elemNum : ℕ) : List Reg :=
  (List.range elemNum).map fun elemID => if I.undef elemID then .null else .value (start + elemID)

/-- As many messages as there are 16 bytes. -/
def msgNum : ℕ := if 16 < I.elemNum * elemSize I then I.elemNum * elemSize I / 16 else 1

def perMsgNum : ℕ := I.elemNum / msgNum I

def emitBatchLoadOrStore : List Insn :=
  (List.range (msgNum I)).map fun msg =>
    .message I.family (msg * 16) (getValueTuple I (perMsgNum I * msg) (perMsgNum I))

/-- Dwords and qwords that are not aligned go byte by byte. -/
def emitUnalignedDQLoadStore : List Insn :=
  let tuple := getValueTuple I 0 I.elemNum
  let byteTuple := (List.range (getTypeByteSize I)).map Reg.byte
  if I.isLoad then
    [.message .BYTE 0 byteTuple, .BITCAST I.family .BYTE tuple byteTuple]
  else
    .BITCAST .BYTE I.family byteTuple tuple ::
      (List.range (getTypeByteSize I)).map fun elemID => .message .BYTE elemID [.byte elemID]

/-- One message for each element that has a value. -/
def emitElements : List Insn :=
  ((List.range I.elemNum).filter fun elemID => !I.undef elemID).map fun elemID =>
    .message I.family (elemID * elemSize I) [.value elemID]

def emitLoadOrStore : List Insn :=
  if !I.dwAligned && (I.family = .QWORD || I.family = .DWORD) then emitUnalignedDQLoadStore I
  else if I.elemNum = 1 then [.message I.family 0 [.value 0]]
  else if I.family = .DWORD && !I.constant then
    if I.elemNum ≤ 4 then [.message I.family 0 (getValueTuple I 0 I.elemNum)]
    else emitBatchLoadOrStore I
  else if (I.family = .WORD && (I.isLoad || I.elemNum % 2 = 0)) ||
      (I.family = .BYTE && (I.isLoad || I.elemNum % 4 = 0)) then
    emitBatchLoadOrStore I
  else emitElements I

/-- "We follow OCL spec and support 2,3,4,8,16 elements only". -/
def Supported (n : ℕ) : Prop := n = 1 ∨ n = 2 ∨ n = 3 ∨ n = 4 ∨ n = 8 ∨ n = 16

instance (n : ℕ) : Decidable (Supported n) :=
  inferInstanceAs (Decidable (n = 1 ∨ n = 2 ∨ n = 3 ∨ n = 4 ∨ n = 8 ∨ n = 16))

/-! ### Batches -/

variable {I : Access}

/-- A batch is one message, or its messages are of 16 bytes. -/
structure Batches (I : Access) : Prop where
  pos : 0 < perMsgNum I
  all : perMsgNum I * msgNum I = I.elemNum
  bytes : perMsgNum I * elemSize I ≤ 16
  full : msgNum I = 1 ∨ perMsgNum I * elemSize I = 16
  supported : Supported (perMsgNum I)
  one : perMsgNum I = 1 → I.elemNum = 1

theorem batches (hn : Supported I.elemNum) (hfamily : I.family ≠ .QWORD) : Batches I := by
  obtain ⟨isLoad, family, n, dwAligned, constant, undef⟩ := I
  simp only [Supported] at hn hfamily
  cases family with
  | QWORD => exact absurd rfl hfamily
  | BYTE | WORD | DWORD =>
    rcases hn with rfl | rfl | rfl | rfl | rfl | rfl <;> constructor <;>
      simp [perMsgNum, msgNum, elemSize, getFamilySize, Supported]

theorem Batches.offset (h : Batches I) {msg : ℕ} (hmsg : msg < msgNum I) :
    perMsgNum I * msg * elemSize I = msg * 16 := by
  rcases h.full with hone | hfull
  · obtain rfl : msg = 0 := by omega
    rw [Nat.mul_zero, Nat.zero_mul, Nat.zero_mul]
  · rw [Nat.mul_right_comm, hfull, Nat.mul_comm]

/-- The message of an element. -/
theorem Batches.msg_of_lt (h : Batches I) {i : ℕ} (hi : i < I.elemNum) :
    i / perMsgNum I < msgNum I ∧ perMsgNum I * (i / perMsgNum I) ≤ i ∧
      i < perMsgNum I * (i / perMsgNum I) + perMsgNum I := by
  refine ⟨?_, Nat.mul_div_le _ _, ?_⟩
  · rw [Nat.div_lt_iff_lt_mul h.pos, Nat.mul_comm, h.all]
    exact hi
  · exact Nat.lt_mul_div_succ i h.pos

theorem getElem?_getValueTuple {start n i : ℕ} {r : Reg} :
    (getValueTuple I start n)[i]? = some r ↔
      i < n ∧ (if I.undef i then Reg.null else .value (start + i)) = r := by
  rw [getValueTuple, List.getElem?_map]
  by_cases hi : i < n
  · simp [hi]
  · simp [hi]

/-- Not byte by byte. -/
def Direct (I : Access) : Prop := I.dwAligned = true ∨ (I.family ≠ .QWORD ∧ I.family ≠ .DWORD)

theorem not_direct (h : ¬ Direct I) :
    I.dwAligned = false ∧ (I.family = .QWORD ∨ I.family = .DWORD) := by
  rw [Direct, not_or, Bool.not_eq_true, not_and_or, not_not, not_not] at h
  exact h

/-- Vectors that go in batches. -/
def Batched (I : Access) : Prop :=
  I.elemNum ≠ 1 ∧ ((I.family = .DWORD ∧ I.constant = false) ∨
    (I.family = .WORD ∧ (I.isLoad = true ∨ I.elemNum % 2 = 0)) ∨
    (I.family = .BYTE ∧ (I.isLoad = true ∨ I.elemNum % 4 = 0)))

theorem Batched.family_ne (h : Batched I) : I.family ≠ .QWORD := by
  rcases h.2 with h | h | h <;> rw [h.1] <;> decide

theorem emitLoadOrStore_of_direct (h : Direct I) :
    emitLoadOrStore I =
      if I.elemNum = 1 then [.message I.family 0 [.value 0]]
      else if I.family = .DWORD && !I.constant then
        if I.elemNum ≤ 4 then [.message I.family 0 (getValueTuple I 0 I.elemNum)]
        else emitBatchLoadOrStore I
      else if (I.family = .WORD && (I.isLoad || I.elemNum % 2 = 0)) ||
          (I.family = .BYTE && (I.isLoad || I.elemNum % 4 = 0)) then
        emitBatchLoadOrStore I
      else emitElements I := by
  refine if_neg ?_
  rcases h with h | h <;> simp [h]

theorem emitLoadOrStore_scalar (h : Direct I) (hone : I.elemNum = 1) :
    emitLoadOrStore I = [.message I.family 0 [.value 0]] := by
  rw [emitLoadOrStore_of_direct h, if_pos hone]

/-- Dwords of one message are a batch of one. -/
theorem emitLoadOrStore_batched (h : Direct I) (hbatched : Batched I) :
    emitLoadOrStore I = emitBatchLoadOrStore I := by
  rw [emitLoadOrStore_of_direct h, if_neg hbatched.1]
  split_ifs with hD hfour hbatch
  · simp only [Bool.and_eq_true, decide_eq_true_eq, Bool.not_eq_true'] at hD
    have hmsg : msgNum I = 1 := by
      rw [msgNum, elemSize, hD.1, getFamilySize, if_neg (by omega)]
    have hper : perMsgNum I = I.elemNum := by rw [perMsgNum, hmsg, Nat.div_one]
    rw [emitBatchLoadOrStore, hmsg, hper, List.range_one, List.map_singleton, Nat.mul_zero,
      Nat.zero_mul]
  · rfl
  · rfl
  · refine absurd hbatched.2 fun hfamily => ?_
    rcases hfamily with hf | hf | hf <;> simp [hf] at hD hbatch

theorem emitLoadOrStore_elements (h : Direct I) (hone : I.elemNum ≠ 1) (hbatched : ¬ Batched I) :
    emitLoadOrStore I = emitElements I := by
  rw [emitLoadOrStore_of_direct h, if_neg hone]
  have hnot := not_and.mp hbatched hone
  split_ifs with hD hfour hbatch
  · exact absurd (.inl (by simpa using hD)) hnot
  · exact absurd (.inl (by simpa using hD)) hnot
  · exact absurd (.inr (by simpa using hbatch)) hnot
  · rfl

theorem bytes_le (hn : Supported I.elemNum) : I.elemNum * elemSize I ≤ 128 := by
  have hsize : elemSize I ≤ 8 := by
    rw [elemSize]
    cases I.family <;> decide
  have hle : I.elemNum ≤ 16 := by
    rw [Supported] at hn
    omega
  calc I.elemNum * elemSize I ≤ 16 * 8 := Nat.mul_le_mul hle hsize
    _ = 128 := rfl

/-! ### Byte by byte -/

theorem emitLoadOrStore_unalignedDQ (haligned : I.dwAligned = false)
    (hfamily : I.family = .QWORD ∨ I.family = .DWORD) :
    emitLoadOrStore I = emitUnalignedDQLoadStore I := by
  refine if_pos ?_
  rcases hfamily with h | h <;> simp [haligned, h]

theorem getTypeByteSize_eq (hthree : I.elemNum ≠ 3) :
    getTypeByteSize I = I.elemNum * elemSize I := by
  rw [getTypeByteSize, TypeLayout.elemNum, if_neg hthree]

/-- The bytes of the temporary tuple. -/
def byteTuple (I : Access) : List Reg := (List.range (getTypeByteSize I)).map Reg.byte

theorem getElem?_byteTuple {j : ℕ} {r : Reg} :
    (byteTuple I)[j]? = some r ↔ j < getTypeByteSize I ∧ r = .byte j := by
  rw [byteTuple, List.getElem?_map]
  by_cases hj : j < getTypeByteSize I
  · simp [hj, eq_comm]
  · simp [hj]

theorem length_byteTuple : (byteTuple I).length = getTypeByteSize I := by
  simp [byteTuple]

theorem length_getValueTuple (start n : ℕ) : (getValueTuple I start n).length = n := by
  simp [getValueTuple]


/-- A byte of a tuple. -/
def tupleByte {V : Type*} [Inhabited V] (size : ℕ) (tuple : List Reg) (regs : Reg × ℕ → V)
    (b : ℕ) : V :=
  match tuple[b / size]? with
  | some r => regs (r, b % size)
  | none => default

/-- What is written to the bytes of the destinations. -/
def bitcastWrites {V : Type*} [Inhabited V] (dstType srcType : Family) (dst src : List Reg)
    (regs : Reg × ℕ → V) : List ((Reg × ℕ) × V) :=
  let dstSize := getFamilySize dstType
  (List.range (dst.length * dstSize)).filterMap fun b =>
    dst[b / dstSize]?.map fun r => ((r, b % dstSize), tupleByte (getFamilySize srcType) src regs b)

/-- The destinations are as many bytes as the sources, and get them in the same order. -/
def bitcast {V : Type*} [Inhabited V] (dstType srcType : Family) (dst src : List Reg)
    (regs : Reg × ℕ → V) : Option (List ((Reg × ℕ) × V)) :=
  if dst.length * getFamilySize dstType = src.length * getFamilySize srcType then
    some (bitcastWrites dstType srcType dst src regs)
  else none

end MemoryInst

end Llvm
