/-
Immediates (`immediate.hpp` and `immediate.cpp`): scalars and arrays of one type, and the
constructors that fold constant expressions.

The data of an immediate is the word inside it or a block from `malloc`, both kept as bytes.  An
assertion that fails, an operation that C++ leaves undefined and an access outside the storage end
the computation.  What is in memory before it is written comes from a parameter.

* `assign_some`, `assign_none` — what a copy keeps;
* `Holds.assign` — a copy of a scalar.
-/
import Beignet.Lib.Buffer
import Beignet.Lib.Saturate

namespace Ir

open Saturate

/-- The last one is also `IMM_TYPE_COMP`. -/
inductive ImmType where
  | TYPE_BOOL | TYPE_S8 | TYPE_U8 | TYPE_S16 | TYPE_U16 | TYPE_S32 | TYPE_U32 | TYPE_S64 | TYPE_U64
  | TYPE_HALF | TYPE_FLOAT | TYPE_DOUBLE | TYPE_LARGE_INT
  deriving DecidableEq

open ImmType

namespace ImmType

/-- In bytes. -/
def getTypeSize : ImmType → ℕ
  | TYPE_BOOL | TYPE_S8 | TYPE_U8 => 1
  | TYPE_S16 | TYPE_HALF | TYPE_U16 => 2
  | TYPE_FLOAT | TYPE_S32 | TYPE_U32 => 4
  | TYPE_DOUBLE | TYPE_S64 | TYPE_U64 => 8
  | TYPE_LARGE_INT => 8

def width (t : ImmType) : ℕ := 8 * t.getTypeSize

/-- Between `TYPE_S8` and `TYPE_U64`. -/
def isInteger : ImmType → Bool
  | TYPE_S8 | TYPE_U8 | TYPE_S16 | TYPE_U16 | TYPE_S32 | TYPE_U32 | TYPE_S64 | TYPE_U64 => true
  | _ => false

def isSigned : ImmType → Bool
  | TYPE_S8 | TYPE_S16 | TYPE_S32 | TYPE_S64 => true
  | _ => false

/-- The type of an operand of an arithmetic operator: `int` for what is smaller. -/
def promote : ImmType → ImmType
  | TYPE_BOOL | TYPE_S8 | TYPE_U8 | TYPE_S16 | TYPE_U16 => TYPE_S32
  | t => t

/-- The union member that `lshr` reads. -/
def unsigned : ImmType → ImmType
  | TYPE_S8 => TYPE_U8
  | TYPE_S16 => TYPE_U16
  | TYPE_S32 => TYPE_U32
  | TYPE_S64 => TYPE_U64
  | t => t

end ImmType

inductive Fault where
  | assertion
  /-- C++ does not define the result -/
  | undefined
  /-- a part of the range is not in the storage -/
  | outside
  /-- an operation on floats, which are not modelled -/
  | float

abbrev Result := Except Fault

def assert (c : Prop) [Decidable c] : Result Unit := if c then pure () else throw .assertion

def inside {α : Type} : Option α → Result α
  | some a => pure a
  | none => throw .outside

def uint32 (n : ℕ) : ℕ := n % 2 ^ 32

structure Immediate where
  type : ImmType
  elemNum : ℕ
  defaultData : List (BitVec 8)
  /-- the block, if `data.p != &defaultData` -/
  block : Option (List (BitVec 8))
  deriving DecidableEq

namespace Immediate

/-- What `data.p` points to. -/
def data (imm : Immediate) : List (BitVec 8) := imm.block.getD imm.defaultData

def zeros (k : ℕ) : List (BitVec 8) := List.replicate k 0

/-- A scalar from its bytes. -/
def scalar (t : ImmType) (bytes : List (BitVec 8)) : Immediate :=
  ⟨t, 1, bytes ++ zeros (8 - t.getTypeSize), none⟩

/-- `Immediate(TYPE FIELD)` -/
def ofWord (t : ImmType) (v : BitVec t.width) : Immediate :=
  scalar t (Buffer.bytes t.getTypeSize v.toNat)

/-- `Immediate(x)` for an expression of the promoted type `t`: signed types do not wrap. -/
def ofExpr (t : ImmType) (x : ℤ) : Result Immediate :=
  if t.isSigned && ¬ (least t.width true ≤ x ∧ x ≤ greatest t.width true) then throw .undefined
  else pure (ofWord t (BitVec.ofInt t.width x))

/-- `Immediate(b)` -/
def ofBool (b : Bool) : Immediate := ofWord TYPE_BOOL (BitVec.ofNat 8 b.toNat)

/-! ### Reading -/

/-- `data.FIELD[index]` -/
def bytesAt (imm : Immediate) (t : ImmType) (index : ℕ) : Result (List (BitVec 8)) :=
  inside (Buffer.read imm.data (index * t.getTypeSize) t.getTypeSize)

/-- `*data.FIELD` -/
def word (imm : Immediate) (t : ImmType) : Result (BitVec t.width) := do
  return BitVec.ofNat t.width (Buffer.number (← imm.bytesAt t 0))

def fetch (imm : Immediate) (t : ImmType) : Result ℤ := do
  return value t.isSigned (← imm.word t)

def getIntegerValue (imm : Immediate) : Result ℤ := do
  assert (imm.type = TYPE_BOOL ∨ imm.type.isInteger)
  return (BitVec.ofInt 64 (← imm.fetch imm.type)).toInt

def getUnsignedIntegerValue (imm : Immediate) : Result ℕ := do
  assert (imm.type = TYPE_BOOL ∨ imm.type.isInteger)
  return (BitVec.ofInt 64 (← imm.fetch imm.type)).toNat

/-! ### Copies -/

section

variable (junk : ℕ → BitVec 8)

def malloc (k : ℕ) : List (BitVec 8) := (List.range k).map junk

/-- `operator=` on a new immediate. -/
def assign (other : Immediate) : Result Immediate :=
  match other.block with
  | some p => do
    let size := uint32 (other.elemNum * other.type.getTypeSize)
    let src ← inside (Buffer.read p 0 size)
    let p ← inside (Buffer.write (malloc junk size) 0 src)
    return ⟨other.type, other.elemNum, malloc junk 8, some p⟩
  | none => return ⟨other.type, other.elemNum, other.defaultData, none⟩

/-- `int32_t` -/
def int32 (x : ℤ) : ℤ := (BitVec.ofInt 32 x).toInt

/-- The place of the copied elements in the new storage, the first of them and their number. -/
def window (size : ℕ) (offset : ℤ) (num : ℕ) : Result (ℕ × ℕ × ℕ) :=
  if offset < 0 then
    return (uint32 ((-offset).toNat * size), 0, num - min num (-offset).toNat)
  else if 0 < offset ∧ 1 < num then do
    assert (offset < int32 num)
    return (0, offset.toNat, num - offset.toNat)
  else return (0, offset.toNat, num)

def copy (other : Immediate) (offset : ℤ) (num : ℕ) : Result Immediate := do
  let size := other.type.getTypeSize
  let total := uint32 (num * size)
  let storage := malloc junk (if total < 8 then 8 else total)
  let storage ← inside (Buffer.write storage 0 (zeros total))
  let (datap, first, num') ← window size offset num
  let src ← inside (Buffer.read other.data (uint32 (first * size)) (uint32 (num' * size)))
  let storage ← inside (Buffer.write storage datap src)
  if total < 8 then return ⟨other.type, num, storage, none⟩
  else return ⟨other.type, num, malloc junk 8, some storage⟩

/-! ### Arrays -/

/-- `Immediate(TYPE *FIELD, uint32_t elemNum)` -/
def ofArray (t : ImmType) (elemNum : ℕ) (array : List (BitVec 8)) : Result Immediate := do
  let total := uint32 (elemNum * t.getTypeSize)
  let src ← inside (Buffer.read array 0 total)
  if uint32 (elemNum * elemNum) > 8 then do
    let p ← inside (Buffer.write (malloc junk total) 0 src)
    return ⟨t, elemNum, zeros 8, some p⟩
  else do
    let word ← inside (Buffer.write (zeros 8) 0 src)
    return ⟨t, elemNum, word, none⟩

/-- The loop of the next constructor over the elements, `p` at `off`. -/
def pack (first : Immediate) : List Immediate → ℕ → List (BitVec 8) → Result (List (BitVec 8))
  | [], _, storage => pure storage
  | imm :: imms, off, storage => do
    assert (imm.type = first.type ∧ imm.elemNum = 1)
    let src ← inside (Buffer.read imm.data 0 imm.type.getTypeSize)
    let storage ← inside (Buffer.write storage off src)
    pack first imms (off + imm.type.getTypeSize) storage

/-- `Immediate(const vector<const Immediate*> immVec, Type dstType)` -/
def ofVector (immVec : List Immediate) (dstType : ImmType) : Result Immediate :=
  match immVec with
  | [] => throw .undefined
  | [imm] => do
    let this ← assign junk imm
    return { this with defaultData := zeros 8 }
  | first :: _ => do
    assert (first.type ≠ TYPE_LARGE_INT ∧ first.elemNum = 1)
    let total := first.type.getTypeSize * immVec.length
    -- the counter of 32 bits does not get to the end of a longer vector, but `p` goes on
    if 2 ^ 32 ≤ immVec.length then throw .outside
    let storage ← pack first immVec 0 (malloc junk (if total < 8 then 8 else total))
    -- in both cases the word inside is cleared behind the copy
    if total < 8 then return ⟨dstType, uint32 immVec.length, zeros 8, none⟩
    else return ⟨dstType, uint32 immVec.length, zeros 8, some storage⟩

end

/-! ### Folding -/

inductive ImmOpCode where
  | IMM_ADD | IMM_SUB | IMM_MUL | IMM_DIV | IMM_REM | IMM_SHL | IMM_ASHR | IMM_LSHR | IMM_AND
  | IMM_OR | IMM_XOR | IMM_OEQ | IMM_ONE | IMM_OLE | IMM_OGE | IMM_OLT | IMM_OGT | IMM_ORD
  | IMM_EXTRACT
  deriving DecidableEq

/-- `left OP right` on the members of the type of `left`, promoted. -/
def binary (f : ImmType → ℤ → ℤ → Result Immediate) (left right : Immediate) :
    Result Immediate := do
  let t := left.type
  if t = TYPE_FLOAT ∨ t = TYPE_HALF ∨ t = TYPE_DOUBLE then throw .float
  assert (t ≠ TYPE_LARGE_INT)
  f t.promote (← left.fetch t) (← right.fetch t)

/-- The same for operators that floats do not have. -/
def binaryInt (f : ImmType → ℤ → ℤ → Result Immediate) (left right : Immediate) :
    Result Immediate := do
  assert (left.type = TYPE_BOOL ∨ left.type.isInteger)
  binary f left right

/-- A comparison of all types. -/
def compare (f : ℤ → ℤ → Bool) : Immediate → Immediate → Result Immediate :=
  binary fun _ a b => pure (ofBool (f a b))

/-- `operator/`; the quotient has to be a number of the type. -/
def quotient (t : ImmType) (a b : ℤ) : Result Immediate :=
  if b = 0 then throw .undefined else ofExpr t (a.tdiv b)

/-- `operator%` is undefined where the quotient is. -/
def remainder (t : ImmType) (a b : ℤ) : Result Immediate := do
  let _ ← quotient t a b
  ofExpr t (a.tmod b)

def bitwise (f : (w : ℕ) → BitVec w → BitVec w → BitVec w) (t : ImmType) (a b : ℤ) :
    Result Immediate :=
  pure (ofWord t (f t.width (BitVec.ofInt t.width a) (BitVec.ofInt t.width b)))

def leftShifted (t : ImmType) (a : ℤ) (n : ℕ) : BitVec t.width := BitVec.ofInt t.width a <<< n

def rightShifted (t : ImmType) (a : ℤ) (n : ℕ) : BitVec t.width := BitVec.ofInt t.width (a >>> n)

section

variable (junk : ℕ → BitVec 8)

/-- A shift operator on a member of `left` that is promoted. -/
def shift (f : (t : ImmType) → ℤ → ℕ → BitVec t.width) (member : ImmType → ImmType)
    (left right : Immediate) : Result Immediate := do
  assert left.type.isInteger
  let shift := int32 (← right.getIntegerValue)
  if shift = 0 then assign junk left
  else
    let a ← left.fetch (member left.type)
    let t := (member left.type).promote
    if shift < 0 ∨ (t.width : ℤ) ≤ shift then throw .undefined
    else return ofWord t (f t a shift.toNat)

/-- `operator<<` -/
def shl : Immediate → Immediate → Result Immediate :=
  shift junk leftShifted id

/-- `operator>>` -/
def ashr : Immediate → Immediate → Result Immediate :=
  shift junk rightShifted id

def lshr : Immediate → Immediate → Result Immediate :=
  shift junk rightShifted ImmType.unsigned

def extract (left right : Immediate) (dstType : ImmType) : Result Immediate := do
  assert (left.type ≠ TYPE_BOOL ∧ left.type ≠ TYPE_LARGE_INT)
  assert (dstType = left.type)
  let index := (BitVec.ofInt 32 (← right.getIntegerValue)).toNat
  assert (index < left.elemNum)
  return scalar left.type (← left.bytesAt left.type index)

/-- The number of elements that an array is shifted by. -/
def elements (left right : Immediate) : Result ℤ := do
  let count ← right.getIntegerValue
  assert (count ≤ uint32 (left.elemNum * left.type.getTypeSize * 8))
  assert (count.tmod (left.type.getTypeSize * 8) = 0)
  return count.tdiv (left.type.getTypeSize * 8)

/-- The right-hand side of `*this = ...` -/
def result (op : ImmOpCode) (left right : Immediate) (dstType : ImmType) : Result Immediate :=
  match op with
  | .IMM_ADD => binary (fun t a b => ofExpr t (a + b)) left right
  | .IMM_SUB => binary (fun t a b => ofExpr t (a - b)) left right
  | .IMM_MUL => binary (fun t a b => ofExpr t (a * b)) left right
  | .IMM_DIV => binary quotient left right
  | .IMM_AND => binaryInt (bitwise fun _ => (· &&& ·)) left right
  | .IMM_OR => binaryInt (bitwise fun _ => (· ||| ·)) left right
  | .IMM_XOR => binaryInt (bitwise fun _ => (· ^^^ ·)) left right
  | .IMM_REM =>
    if left.type.isInteger then binaryInt remainder left right
    else if left.type = TYPE_FLOAT ∨ left.type = TYPE_DOUBLE then throw .float
    else throw .assertion
  | .IMM_LSHR => lshr junk left right
  | .IMM_ASHR => ashr junk left right
  | .IMM_SHL => shl junk left right
  | .IMM_OEQ => compare (· == ·) left right
  | .IMM_ONE => compare (· != ·) left right
  | .IMM_OLE => compare (· ≤ ·) left right
  | .IMM_OGE => compare (· ≥ ·) left right
  | .IMM_OLT => do
    assert (left.type ≠ TYPE_BOOL)
    compare (· < ·) left right
  | .IMM_OGT => compare (· > ·) left right
  | .IMM_ORD => do
    let l ← compare (· == ·) left left
    let r ← compare (· == ·) right right
    compare (fun a b => a != 0 && b != 0) l r
  | .IMM_EXTRACT => extract left right dstType

/-- `Immediate(ImmOpCode op, const Immediate &left, const Immediate &right, Type dstType)` -/
def fold (op : ImmOpCode) (left right : Immediate) (dstType : ImmType) : Result Immediate := do
  let this ←
    if left.elemNum ≠ 1 ∧ op = .IMM_LSHR then do
      copy junk left (int32 (← elements left right)) left.elemNum
    else if left.elemNum ≠ 1 ∧ op = .IMM_SHL then do
      copy junk left (int32 (-(← elements left right))) left.elemNum
    else if left.elemNum ≠ 1 ∧ op = .IMM_ASHR then throw .assertion
    else do assign junk (← result junk op left right dstType)
  assert (this.type = dstType ∨ dstType = TYPE_LARGE_INT ∨ dstType = TYPE_BOOL)
  return this

/-! ### Conversion -/

inductive ConvOpCode where
  | IMM_TRUNC | IMM_BITCAST | IMM_SEXT | IMM_ZEXT

/-- `Immediate((intN_t)value)` -/
def signExtended (other : Immediate) (dstType : ImmType) : Result Immediate := do
  let value ← other.getIntegerValue
  let value := if other.type = TYPE_BOOL then -value else value
  assert (dstType.isInteger ∧ dstType.isSigned)
  return ofWord dstType (BitVec.ofInt dstType.width value)

/-- `Immediate((uintN_t)value)` -/
def zeroExtended (other : Immediate) (dstType : ImmType) : Result Immediate := do
  let value ← other.getUnsignedIntegerValue
  assert (dstType.isInteger ∧ ¬ dstType.isSigned)
  return ofWord dstType (BitVec.ofNat dstType.width value)

/-- `Immediate(ImmOpCode op, const Immediate &other, Type dstType)` on integers. -/
def convert (op : ConvOpCode) (other : Immediate) (dstType : ImmType) : Result Immediate :=
  match op with
  | .IMM_TRUNC => copy junk other 0 1
  | .IMM_BITCAST => do
    let this ← assign junk other
    return { this with type := dstType }
  | .IMM_SEXT => do
    let _ ← signExtended other dstType
    -- the case has no `break`
    zeroExtended other dstType
  | .IMM_ZEXT => zeroExtended other dstType

end

/-! ### Scalars that hold a word -/

structure Holds (imm : Immediate) (t : ImmType) (v : BitVec t.width) : Prop where
  type : imm.type = t
  elemNum : imm.elemNum = 1
  word : imm.word t = pure v

theorem inside_eq_pure {α : Type} {o : Option α} {a : α} :
    inside o = pure a ↔ o = some a := by
  cases o with
  | none =>
    constructor
    · intro h
      cases h
    · intro h
      cases h
  | some b =>
    constructor
    · intro h
      cases h
      rfl
    · intro h
      cases h
      rfl

theorem getTypeSize_le (t : ImmType) : t.getTypeSize ≤ 8 := by
  cases t <;> decide

theorem getTypeSize_pos (t : ImmType) : 0 < t.getTypeSize := by
  cases t <;> decide

theorem uint32_of_lt {n : ℕ} (h : n < 2 ^ 32) : uint32 n = n := Nat.mod_eq_of_lt h

theorem length_malloc (junk : ℕ → BitVec 8) (k : ℕ) : (malloc junk k).length = k := by
  simp [malloc]

theorem length_zeros (k : ℕ) : (zeros k).length = k := List.length_replicate

theorem data_none {t : ImmType} {n : ℕ} {word : List (BitVec 8)} :
    (⟨t, n, word, none⟩ : Immediate).data = word := rfl

theorem data_some {t : ImmType} {n : ℕ} {word p : List (BitVec 8)} :
    (⟨t, n, word, some p⟩ : Immediate).data = p := rfl

/-- A block is copied as far as the size in 32 bits goes. -/
theorem assign_some (junk : ℕ → BitVec 8) {t : ImmType} {n size : ℕ} {word p : List (BitVec 8)}
    (hsize : uint32 (n * t.getTypeSize) = size) (hp : size ≤ p.length) :
    assign junk ⟨t, n, word, some p⟩ = pure ⟨t, n, malloc junk 8, some (p.take size)⟩ := by
  have hread : Buffer.read p 0 size = some (p.take size) := by
    rw [Buffer.read_of_le (by omega), List.drop_zero]
  have hlen : (p.take size).length = size := by
    rw [List.length_take]
    omega
  have hwrite : Buffer.write (malloc junk size) 0 (p.take size) = some (p.take size) := by
    rw [Buffer.write_of_le (by rw [length_malloc]; omega), List.take_zero, List.nil_append,
      Nat.zero_add, List.drop_eq_nil_of_le (by rw [length_malloc]; omega), List.append_nil]
  simp only [assign, hsize, hread, hwrite, inside, pure_bind]

theorem assign_none (junk : ℕ → BitVec 8) {t : ImmType} {n : ℕ} {word : List (BitVec 8)} :
    assign junk ⟨t, n, word, none⟩ = pure ⟨t, n, word, none⟩ := rfl

/-- The bytes behind a word. -/
theorem word_eq_pure {imm : Immediate} {t : ImmType} {v : BitVec t.width} :
    imm.word t = pure v ↔ t.getTypeSize ≤ imm.data.length ∧
      BitVec.ofNat t.width (Buffer.number (imm.data.take t.getTypeSize)) = v := by
  rw [word, bytesAt, Nat.zero_mul]
  by_cases hle : t.getTypeSize ≤ imm.data.length
  · rw [Buffer.read_of_le (by omega), List.drop_zero]
    constructor
    · intro h
      cases h
      exact ⟨hle, rfl⟩
    · rintro ⟨-, rfl⟩
      rfl
  · rw [Buffer.read_eq_none (by omega)]
    constructor
    · intro h
      cases h
    · intro h
      exact absurd h.1 hle

/-- Elements in storage that is cleared first. -/
theorem write_zeros (storage src : List (BitVec 8)) {total off : ℕ}
    (htotal : total ≤ storage.length) (hsrc : off + src.length ≤ total) :
    ∃ cleared filled, Buffer.write storage 0 (zeros total) = some cleared ∧
      Buffer.write cleared off src = some filled ∧ filled.length = storage.length ∧
      filled.take total = zeros off ++ src ++ zeros (total - off - src.length) := by
  have hzeros := length_zeros total
  have hclear : Buffer.write storage 0 (zeros total) =
      some (zeros total ++ storage.drop total) := by
    rw [Buffer.write_of_le (by omega), List.take_zero, List.nil_append, Nat.zero_add, hzeros]
  have hfill : Buffer.write (zeros total ++ storage.drop total) off src =
      some (zeros off ++ src ++ zeros (total - off - src.length) ++ storage.drop total) := by
    rw [Buffer.write_of_le (by simp only [List.length_append]; omega),
      List.take_append_of_le_length (by omega), List.drop_append_of_le_length (by omega), zeros,
      List.take_replicate, List.drop_replicate, Nat.min_eq_left (by omega), ← Nat.sub_sub,
      List.append_assoc (_ ++ src)]
    rfl
  refine ⟨_, _, hclear, hfill, ?_, List.take_left' ?_⟩
  · rw [Buffer.length_write hfill, Buffer.length_write hclear]
  · simp only [List.length_append, length_zeros]
    omega

/-- A copy of elements that are all there, into storage that has room for them. -/
theorem copy_of_window (junk : ℕ → BitVec 8) {imm : Immediate} {offset : ℤ}
    {num datap first num' total len : ℕ} (htotal : uint32 (num * imm.type.getTypeSize) = total)
    (hlen : uint32 (num' * imm.type.getTypeSize) = len)
    (hwindow : window imm.type.getTypeSize offset num = pure (datap, first, num'))
    (hin : uint32 (first * imm.type.getTypeSize) + len ≤ imm.data.length)
    (hfit : datap + len ≤ total) :
    ∃ imm', copy junk imm offset num = pure imm' ∧ imm'.type = imm.type ∧ imm'.elemNum = num ∧
      imm'.data.length = (if total < 8 then 8 else total) ∧
      (imm'.block = none ↔ total < 8) ∧
      imm'.data.take total = zeros datap ++
        (imm.data.drop (uint32 (first * imm.type.getTypeSize))).take len ++
          zeros (total - datap - len) := by
  have hread := Buffer.read_of_le hin
  have hsrc := Buffer.length_read hread
  have hstorage := length_malloc junk (if total < 8 then 8 else total)
  obtain ⟨cleared, filled, hclear, hfill, hlength, htake⟩ :=
    write_zeros (malloc junk (if total < 8 then 8 else total))
      ((imm.data.drop (uint32 (first * imm.type.getTypeSize))).take len)
      (show total ≤ _ by rw [hstorage]; split <;> omega) (show datap + _ ≤ total by omega)
  rw [hsrc] at htake
  rw [hstorage] at hlength
  by_cases hsmall : total < 8
  · rw [if_pos hsmall] at hclear
    refine ⟨⟨imm.type, num, filled, none⟩, ?_, rfl, rfl, hlength, iff_of_true rfl hsmall, htake⟩
    simp only [copy, htotal, if_pos hsmall, hclear, hwindow, hlen, hread, hfill, inside, pure_bind]
  · rw [if_neg hsmall] at hclear
    refine ⟨⟨imm.type, num, malloc junk 8, some filled⟩, ?_, rfl, rfl, hlength,
      iff_of_false (Option.some_ne_none _) hsmall, htake⟩
    simp only [copy, htotal, if_neg hsmall, hclear, hwindow, hlen, hread, hfill, inside, pure_bind]

theorem Holds.copy (junk : ℕ → BitVec 8) {imm : Immediate} {t : ImmType} {v : BitVec t.width}
    (h : Holds imm t v) : ∃ imm', imm.copy junk 0 1 = pure imm' ∧ Holds imm' t v := by
  obtain ⟨rfl, hn, hword⟩ := h
  obtain ⟨hlen, hv⟩ := word_eq_pure.mp hword
  have hle := getTypeSize_le imm.type
  have hsize : uint32 (1 * imm.type.getTypeSize) = imm.type.getTypeSize := by
    rw [Nat.one_mul]
    exact uint32_of_lt (by omega)
  have hzero : uint32 (0 * imm.type.getTypeSize) = 0 := by
    rw [Nat.zero_mul]
    rfl
  have hwindow : window imm.type.getTypeSize 0 1 = pure (0, 0, 1) := rfl
  obtain ⟨imm', hcopy, htype, hnum, hlength, -, htake⟩ :=
    copy_of_window junk hsize hsize hwindow (by omega) (by omega)
  refine ⟨imm', hcopy, htype, hnum, word_eq_pure.mpr ⟨?_, ?_⟩⟩
  · split at hlength
    · omega
    · omega
  · rw [htake, hzero, Nat.sub_zero, Nat.sub_self, List.drop_zero]
    simpa [zeros] using hv

theorem Holds.assign (junk : ℕ → BitVec 8) {imm : Immediate} {t : ImmType} {v : BitVec t.width}
    (h : Holds imm t v) : ∃ imm', imm.assign junk = pure imm' ∧ Holds imm' t v := by
  obtain ⟨type, n, word, block⟩ := imm
  obtain ⟨htype, hn, hword⟩ := h
  cases block with
  | none => exact ⟨_, rfl, htype, hn, hword⟩
  | some p =>
    obtain rfl : type = t := htype
    obtain rfl : n = 1 := hn
    obtain ⟨hlen, hv⟩ := word_eq_pure.mp hword
    have hle := getTypeSize_le type
    have hsize : uint32 (1 * type.getTypeSize) = type.getTypeSize := by
      rw [Nat.one_mul]
      exact uint32_of_lt (by omega)
    refine ⟨_, assign_some junk hsize hlen, rfl, rfl, word_eq_pure.mpr ⟨?_, ?_⟩⟩
    · rw [data_some, List.length_take]
      exact le_min le_rfl hlen
    · rw [data_some, List.take_take, Nat.min_self]
      exact hv

theorem holds_ofWord (t : ImmType) (v : BitVec t.width) : Holds (ofWord t v) t v := by
  refine ⟨rfl, rfl, word_eq_pure.mpr ?_⟩
  have hlen := Buffer.length_bytes t.getTypeSize v.toNat
  have hdata : (ofWord t v).data =
      Buffer.bytes t.getTypeSize v.toNat ++ zeros (8 - t.getTypeSize) := rfl
  rw [hdata, List.take_left' hlen, List.length_append, hlen]
  exact ⟨Nat.le_add_right _ _, Buffer.ofNat_number_bytes v⟩

theorem Holds.unique {imm : Immediate} {t : ImmType} {v w : BitVec t.width} (hv : Holds imm t v)
    (hw : Holds imm t w) : v = w := by
  have h := hv.word.symm.trans hw.word
  cases h
  rfl

theorem Holds.fetch {imm : Immediate} {t : ImmType} {v : BitVec t.width} (h : Holds imm t v) :
    imm.fetch t = pure (value t.isSigned v) := by
  rw [Immediate.fetch, h.word]
  rfl

end Immediate

end Ir
