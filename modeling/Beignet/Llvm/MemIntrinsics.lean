/-
`memcpy` and `memset`: the routine that `InstrinsicLowering` (`llvm_intrinsic_lowering.cpp`) calls
in their place, and the routines of `ocl_memcpy.cl` and `ocl_memset.cl`.

A routine is named by its address spaces and by whether it works in dwords; one whose name the
library does not have is as the others.  A pointer leads to an offset in one of the memories,
whatever its address space says; offsets and counts have as many bits as `size_t`.  An access to a
dword does not look at the two lowest bits of the offset.

* `dwordStep_eq` — an aligned dword is four bytes;
* `returns_bytes`, `returns_dwords`, `not_returns_dwords` — which routines end, and with what;
* **`lowering_iff`** — when the routine that is called is right and was chosen for a reason.
-/
import Beignet.Lib.CopyLoop
import Beignet.Lib.Iterate

namespace Llvm

namespace MemIntrinsics

variable {R : Type*} {w : ℕ}

abbrev Byte := BitVec 8

abbrev Address (R : Type*) (w : ℕ) := R × BitVec w

abbrev Memory (R : Type*) (w : ℕ) := Address R w → Byte

def Address.add (a : Address R w) (index : BitVec w) : Address R w := (a.1, a.2 + index)

/-- The address of the dword. -/
def Address.dword (a : Address R w) : Address R w := (a.1, BitVec.ofNat w (a.2.toNat / 4 * 4))

/-! ### The routines -/

/-- `index` and the memory. -/
structure Loop (R : Type*) (w : ℕ) where
  index : BitVec w
  mem : Memory R w

def loadByte (src : Address R w) (mem : Memory R w) (index : BitVec w) : Byte :=
  mem (src.add index)

def loadDword (src : Address R w) (mem : Memory R w) (index : BitVec w) (k : ℕ) : Byte :=
  mem ((src.add index).dword.add (BitVec.ofNat w k))

/-- `(val << 24) | (val << 16) | (val << 8) | val` -/
def splat (val : Byte) : BitVec 32 :=
  (val.setWidth 32 <<< 24) ||| (val.setWidth 32 <<< 16) ||| (val.setWidth 32 <<< 8) |||
    val.setWidth 32

section

variable [DecidableEq R]

/-- One byte. -/
def byteStep (dst : Address R w) (value : Memory R w → BitVec w → Byte) (s : Loop R w) :
    Loop R w :=
  ⟨s.index + 1, Function.update s.mem (dst.add s.index) (value s.mem s.index)⟩

def storeDword (mem : Memory R w) (a : Address R w) (v : ℕ → Byte) : Memory R w :=
  Function.update (Function.update (Function.update (Function.update mem
    (a.dword.add 0) (v 0)) (a.dword.add 1) (v 1)) (a.dword.add 2) (v 2)) (a.dword.add 3) (v 3)

/-- One dword. -/
def dwordStep (dst : Address R w) (value : Memory R w → BitVec w → ℕ → Byte) (s : Loop R w) :
    Loop R w :=
  ⟨s.index + 4, storeDword s.mem (dst.add s.index) (value s.mem s.index)⟩

/-- `while (index < size)` -/
def bytes (dst : Address R w) (value : Memory R w → BitVec w → Byte) (size : BitVec w)
    (fuel : ℕ) (s : Loop R w) : Option (Loop R w) :=
  Iterate.whileDo (fun s => decide (s.index < size)) (byteStep dst value) fuel s

/-- `while ((index + 4) <= size)` -/
def dwords (dst : Address R w) (value : Memory R w → BitVec w → ℕ → Byte) (size : BitVec w)
    (fuel : ℕ) (s : Loop R w) : Option (Loop R w) :=
  Iterate.whileDo (fun s => decide (s.index + 4 ≤ size)) (dwordStep dst value) fuel s

variable (dst src : Address R w) (val : Byte) (size : BitVec w) (fuel : ℕ) (mem : Memory R w)

def genMemcpyAlign : Option (Memory R w) := do
  let s ← dwords dst (loadDword src) size fuel ⟨0, mem⟩
  let s ← bytes dst (loadByte src) size fuel s
  return s.mem

def genMemcpy : Option (Memory R w) := do
  let s ← bytes dst (loadByte src) size fuel ⟨0, mem⟩
  return s.mem

def genMemsetAlign : Option (Memory R w) := do
  let s ← dwords dst (fun _ _ k => (splat val).extractLsb' (8 * k) 8) size fuel ⟨0, mem⟩
  let s ← bytes dst (fun _ _ => val) size fuel s
  return s.mem

def genMemset : Option (Memory R w) := do
  let s ← bytes dst (fun _ _ => val) size fuel ⟨0, mem⟩
  return s.mem

end

/-! ### The pass -/

/-- With the letters of `convertSpaceToName`. -/
inductive Space where
  | p | g | c | l | n

/-- A pointer operand. -/
structure Pointer (R : Type*) (w : ℕ) where
  space : Space
  addr : Address R w
  /-- the `align` attribute, 0 where there is none -/
  align : ℕ

inductive Intrinsic (R : Type*) (w : ℕ) where
  | memcpy (dst src : Pointer R w)
  | memset (dst : Pointer R w) (value : ℕ)

structure CallInst (R : Type*) (w : ℕ) where
  intrinsic : Intrinsic R w
  size : BitVec w
  /-- what operand 3 is when it is a `ConstantInt` -/
  operand3 : Option ℕ

/-- The parts of the name of a routine. -/
inductive Routine where
  | memcpy (dst src : Space) (align : Bool)
  | memset (dst : Space) (align : Bool)

def Routine.align : Routine → Bool
  | memcpy _ _ align | memset _ align => align

/-- A `ConstantInt` that 4 divides. -/
def isAligned : Option ℕ → Bool
  | some ci => ci % 4 = 0
  | none => false

def CallInst.routine (call : CallInst R w) : Routine :=
  match call.intrinsic with
  | .memcpy dst src => .memcpy dst.space src.space (isAligned call.operand3)
  | .memset dst _ => .memset dst.space (isAligned call.operand3)

/-- The call that is there after the pass. -/
def CallInst.run [DecidableEq R] (call : CallInst R w) (fuel : ℕ) (mem : Memory R w) :
    Option (Memory R w) :=
  match call.intrinsic, call.routine.align with
  | .memcpy dst src, true => genMemcpyAlign dst.addr src.addr call.size fuel mem
  | .memcpy dst src, false => genMemcpy dst.addr src.addr call.size fuel mem
  | .memset dst value, true => genMemsetAlign dst.addr (BitVec.ofNat 8 value) call.size fuel mem
  | .memset dst value, false => genMemset dst.addr (BitVec.ofNat 8 value) call.size fuel mem

/-! ### What a call is for -/

/-- The places of a range, counted from its start. -/
def places (a : Address R w) (i : ℕ) : Address R w := a.add (BitVec.ofNat w i)

/-- The requested bytes, and no other, have changed. -/
def CallInst.Exact (call : CallInst R w) (m m' : Memory R w) : Prop :=
  match call.intrinsic with
  | .memcpy dst src => CopyLoop.Copied (places dst.addr) (places src.addr) call.size.toNat m m'
  | .memset dst value => CopyLoop.Written (places dst.addr) (fun _ => BitVec.ofNat 8 value)
      call.size.toNat m m'

/-- `f` ends with `a`, given enough fuel. -/
def Returns {α : Type*} (f : ℕ → Option α) (a : α) : Prop := ∃ n, ∀ fuel, n < fuel → f fuel = some a

/-- The pointers of a call. -/
def Intrinsic.pointers : Intrinsic R w → List (Pointer R w)
  | .memcpy dst src => [dst, src]
  | .memset dst _ => [dst]

/-- What the call says about a pointer: before LLVM 7 in operand 3, from then on in the
attribute. -/
def CallInst.alignOf (call : CallInst R w) (llvm7 : Bool) (p : Pointer R w) : ℕ :=
  if llvm7 then p.align else call.operand3.getD 0

/-- The pointers are known to be multiples of 4. -/
def CallInst.Known (call : CallInst R w) (llvm7 : Bool) : Prop :=
  ∀ p ∈ call.intrinsic.pointers, call.alignOf llvm7 p ≠ 0 ∧ 4 ∣ call.alignOf llvm7 p

/-- What the call says is true. -/
def CallInst.Consistent (call : CallInst R w) (llvm7 : Bool) : Prop :=
  ∀ p ∈ call.intrinsic.pointers, call.alignOf llvm7 p ≠ 0 →
    call.alignOf llvm7 p ∣ p.addr.2.toNat

instance (call : CallInst R w) (llvm7 : Bool) : Decidable (call.Known llvm7) :=
  inferInstanceAs (Decidable (∀ p ∈ call.intrinsic.pointers, _ ∧ _))

instance (call : CallInst R w) (llvm7 : Bool) : Decidable (call.Consistent llvm7) :=
  inferInstanceAs (Decidable (∀ p ∈ call.intrinsic.pointers, _ → _))

/-- The routine does what the call asks for, and works in dwords only where it may. -/
structure CallInst.Correct [DecidableEq R] (call : CallInst R w) (llvm7 : Bool) : Prop where
  exact : ∀ m, ∃ m', Returns (call.run · m) m' ∧ call.Exact m m'
  known : call.routine.align = true → call.Known llvm7

/-! ### Addresses -/

theorem add_add (a : Address R w) (i j : BitVec w) : (a.add i).add j = a.add (i + j) := by
  simp only [Address.add, BitVec.add_assoc]

theorem ofNat_succ (k : ℕ) : (BitVec.ofNat w k) + 1 = BitVec.ofNat w (k + 1) := by
  rw [BitVec.ofNat_add]
  rfl

theorem ofNat_add_four (k : ℕ) : (BitVec.ofNat w k) + 4 = BitVec.ofNat w (k + 4) := by
  rw [BitVec.ofNat_add]
  rfl

theorem toNat_ofNat_of_le {size : BitVec w} {k : ℕ} (h : k ≤ size.toNat) :
    (BitVec.ofNat w k).toNat = k := by
  rw [BitVec.toNat_ofNat, Nat.mod_eq_of_lt (by omega)]

/-- The places of a range are different. -/
theorem distinct_places (a : Address R w) (size : BitVec w) :
    CopyLoop.Distinct (places a) size.toNat := by
  intro i j hi hj heq
  have hoff : a.2 + BitVec.ofNat w i = a.2 + BitVec.ofNat w j := congrArg Prod.snd heq
  have hnat := congrArg BitVec.toNat ((BitVec.add_right_inj a.2).mp hoff)
  rwa [toNat_ofNat_of_le hi.le, toNat_ofNat_of_le hj.le] at hnat

def Address.Aligned (a : Address R w) : Prop := 4 ∣ a.2.toNat

theorem dword_eq {a : Address R w} (h : a.Aligned) : a.dword = a := by
  rw [Address.dword, Nat.div_mul_cancel h, BitVec.ofNat_toNat, BitVec.setWidth_eq]

theorem four_dvd_two_pow (hw : 2 ≤ w) : 4 ∣ 2 ^ w := pow_dvd_pow 2 hw

theorem Address.Aligned.add {a : Address R w} (hw : 2 ≤ w) (h : a.Aligned) {i : BitVec w}
    (hi : 4 ∣ i.toNat) : (a.add i).Aligned := by
  rw [Address.Aligned, Address.add, BitVec.toNat_add,
    Nat.dvd_mod_iff (four_dvd_two_pow hw)]
  exact Nat.dvd_add h hi

theorem four_dvd_ofNat (hw : 2 ≤ w) (k : ℕ) : 4 ∣ (BitVec.ofNat w (4 * k)).toNat := by
  rw [BitVec.toNat_ofNat, Nat.dvd_mod_iff (four_dvd_two_pow hw)]
  exact dvd_mul_right 4 k

/-! ### The loops -/

section

variable [DecidableEq R] {dst src : Address R w} {size : BitVec w}

/-- `k` turns of the byte loop. -/
def turns (dst : Address R w) (value : Memory R w → BitVec w → Byte) (index : BitVec w)
    (mem : Memory R w) (k : ℕ) : Memory R w :=
  CopyLoop.run (places (dst.add index)) (fun m i => value m (index + BitVec.ofNat w i)) mem k

theorem byteStep_iterate (value : Memory R w → BitVec w → Byte) (s : Loop R w) (k : ℕ) :
    (byteStep dst value)^[k] s =
      ⟨s.index + BitVec.ofNat w k, turns dst value s.index s.mem k⟩ := by
  induction k with
  | zero => exact congrArg (Loop.mk · s.mem) (BitVec.add_zero s.index).symm
  | succ k ih =>
    rw [Function.iterate_succ_apply', ih, byteStep, BitVec.add_assoc, ofNat_succ, turns, turns,
      CopyLoop.run_succ, places, add_add]

/-- The value of each byte of a dword is the one that the byte loop has by then. -/
def Bytewise (dst : Address R w) (dvalue : Memory R w → BitVec w → ℕ → Byte)
    (value : Memory R w → BitVec w → Byte) : Prop :=
  ∀ mem (index : BitVec w), 4 ∣ index.toNat → ∀ k < 4,
    dvalue mem index k = value (turns dst value index mem k) (index + BitVec.ofNat w k)

theorem storeDword_eq {a : Address R w} (h : a.Aligned) (mem : Memory R w) (v : ℕ → Byte) :
    storeDword mem a v = CopyLoop.run (places a) (fun _ k => v k) mem 4 := by
  rw [storeDword, dword_eq h]
  rfl

/-- An aligned dword is four bytes. -/
theorem dwordStep_eq (hw : 2 ≤ w) (hdst : dst.Aligned)
    {dvalue : Memory R w → BitVec w → ℕ → Byte} {value : Memory R w → BitVec w → Byte}
    (hvalue : Bytewise dst dvalue value) {s : Loop R w} (hs : 4 ∣ s.index.toNat) :
    dwordStep dst dvalue s = (byteStep dst value)^[4] s := by
  rw [byteStep_iterate, dwordStep, storeDword_eq (hdst.add hw hs)]
  exact congrArg (Loop.mk _) (CopyLoop.run_congr fun k hk => hvalue s.mem s.index hs k hk)

variable {dvalue : Memory R w → BitVec w → ℕ → Byte} {value : Memory R w → BitVec w → Byte}

theorem dwordStep_iterate (hw : 2 ≤ w) (hdst : dst.Aligned) (hvalue : Bytewise dst dvalue value)
    (mem : Memory R w) (q : ℕ) :
    (dwordStep dst dvalue)^[q] ⟨0, mem⟩ = (byteStep dst value)^[4 * q] ⟨0, mem⟩ := by
  induction q with
  | zero => rfl
  | succ q ih =>
    have halign : 4 ∣ ((byteStep dst value)^[4 * q] ⟨0, mem⟩).index.toNat := by
      rw [byteStep_iterate]
      exact (BitVec.zero_add (BitVec.ofNat w (4 * q))).symm ▸ four_dvd_ofNat hw q
    rw [Function.iterate_succ_apply', ih, dwordStep_eq hw hdst hvalue halign,
      ← Function.iterate_add_apply, Nat.add_comm 4, Nat.mul_succ]

/-- What all turns of the byte loop leave. -/
def whole (dst : Address R w) (value : Memory R w → BitVec w → Byte) (size : BitVec w)
    (mem : Memory R w) : Memory R w :=
  CopyLoop.run (places dst) (fun m i => value m (BitVec.ofNat w i)) mem size.toNat

theorem byteStep_whole (mem : Memory R w) :
    ((byteStep dst value)^[size.toNat] ⟨0, mem⟩).mem = whole dst value size mem := by
  have hdst : dst.add 0 = dst := by rw [Address.add, BitVec.ofNat_eq_ofNat, BitVec.add_zero]
  rw [byteStep_iterate, turns, whole, hdst]
  simp only [BitVec.ofNat_eq_ofNat, BitVec.zero_add]

theorem byteStep_index (mem : Memory R w) {k : ℕ} (h : k ≤ size.toNat) :
    ((byteStep dst value)^[k] ⟨0, mem⟩).index.toNat = k := by
  rw [byteStep_iterate]
  exact (BitVec.zero_add (BitVec.ofNat w k)).symm ▸ toNat_ofNat_of_le h

/-- The byte loop goes on from any of its turns. -/
theorem bytes_eq (mem : Memory R w) {k fuel : ℕ} (hk : k ≤ size.toNat)
    (hfuel : size.toNat < fuel) :
    bytes dst value size fuel ((byteStep dst value)^[k] ⟨0, mem⟩) =
      some ((byteStep dst value)^[size.toNat] ⟨0, mem⟩) := by
  have hsum (n : ℕ) : (byteStep dst value)^[n] ((byteStep dst value)^[k] ⟨0, mem⟩) =
      (byteStep dst value)^[n + k] ⟨0, mem⟩ := (Function.iterate_add_apply _ n k _).symm
  have hend : size.toNat - k + k = size.toNat := Nat.sub_add_cancel hk
  rw [bytes, Iterate.whileDo_eq (n := size.toNat - k) ?_ ?_ (by omega), hsum, hend]
  · intro n hn
    rw [hsum, decide_eq_true_iff, BitVec.lt_def,
      byteStep_index mem (show n + k ≤ size.toNat by omega)]
    omega
  · rw [hsum, hend, decide_eq_false_iff_not, BitVec.lt_def, byteStep_index mem le_rfl]
    exact lt_irrefl _

theorem dwordStep_index (hw : 2 ≤ w) (hdst : dst.Aligned) (hvalue : Bytewise dst dvalue value)
    (mem : Memory R w) (q : ℕ) :
    ((dwordStep dst dvalue)^[q] ⟨0, mem⟩).index = BitVec.ofNat w (4 * q) := by
  rw [dwordStep_iterate hw hdst hvalue, byteStep_iterate]
  exact BitVec.zero_add _

/-- The dword loop ends at the last whole dword. -/
theorem dwords_eq (hw : 2 ≤ w) (hdst : dst.Aligned) (hvalue : Bytewise dst dvalue value)
    (mem : Memory R w) {fuel : ℕ} (hsize : size.toNat + 4 < 2 ^ w) (hfuel : size.toNat < fuel) :
    dwords dst dvalue size fuel ⟨0, mem⟩ =
      some ((byteStep dst value)^[4 * (size.toNat / 4)] ⟨0, mem⟩) := by
  have hnext (q : ℕ) (hq : 4 * q + 4 < 2 ^ w) :
      (BitVec.ofNat w (4 * q) + 4 ≤ size) ↔ 4 * q + 4 ≤ size.toNat := by
    rw [ofNat_add_four, BitVec.le_def, BitVec.toNat_ofNat, Nat.mod_eq_of_lt hq]
  rw [dwords, Iterate.whileDo_eq (n := size.toNat / 4) ?_ ?_ (by omega),
    dwordStep_iterate hw hdst hvalue]
  · intro q hq
    rw [dwordStep_index hw hdst hvalue, decide_eq_true_iff, hnext q (by omega)]
    omega
  · rw [dwordStep_index hw hdst hvalue, decide_eq_false_iff_not, hnext _ (by omega)]
    omega

/-- Within four of the largest count, the sum wraps to one that is not above it. -/
theorem dwords_eq_none (hw : 2 ≤ w) (hdst : dst.Aligned) (hvalue : Bytewise dst dvalue value)
    (mem : Memory R w) (fuel : ℕ) (hsize : 2 ^ w ≤ size.toNat + 4) :
    dwords dst dvalue size fuel ⟨0, mem⟩ = none := by
  refine Iterate.whileDo_eq_none fun q => ?_
  have hfour := four_dvd_two_pow hw
  have hnext : 4 ∣ (BitVec.ofNat w (4 * q + 4)).toNat := four_dvd_ofNat hw (q + 1)
  rw [dwordStep_index hw hdst hvalue, decide_eq_true_iff, ofNat_add_four, BitVec.le_def]
  omega

/-- The routines with dwords. -/
theorem dwords_bytes_eq (hw : 2 ≤ w) (hdst : dst.Aligned) (hvalue : Bytewise dst dvalue value)
    (mem : Memory R w) {fuel : ℕ} (hsize : size.toNat + 4 < 2 ^ w) (hfuel : size.toNat < fuel) :
    ((dwords dst dvalue size fuel ⟨0, mem⟩).bind (bytes dst value size fuel)) =
      some ((byteStep dst value)^[size.toNat] ⟨0, mem⟩) := by
  rw [dwords_eq hw hdst hvalue mem hsize hfuel, Option.bind_some,
    bytes_eq mem (Nat.mul_div_le _ 4) hfuel]

end

theorem Returns.unique {α : Type*} {f : ℕ → Option α} {a b : α} (ha : Returns f a)
    (hb : Returns f b) : a = b := by
  obtain ⟨n, hn⟩ := ha
  obtain ⟨k, hk⟩ := hb
  exact Option.some_inj.mp ((hn (n + k + 1) (by omega)).symm.trans (hk (n + k + 1) (by omega)))

theorem not_returns {α : Type*} {f : ℕ → Option α} (h : ∀ fuel, f fuel = none) (a : α) :
    ¬ Returns f a := by
  rintro ⟨n, hn⟩
  exact Option.some_ne_none a ((hn (n + 1) n.lt_succ_self).symm.trans (h (n + 1)))

/-! ### The values that are written -/

section

variable [DecidableEq R] {dst src : Address R w} {size : BitVec w} {mem : Memory R w}

omit [DecidableEq R] in
/-- Bytes at different places of their dwords are different. -/
theorem add_ne (hw : 2 ≤ w) {a b : Address R w} (ha : a.Aligned) (hb : b.Aligned) {i j : ℕ}
    (hi : i < 4) (hj : j < 4) (hne : i ≠ j) :
    a.add (BitVec.ofNat w i) ≠ b.add (BitVec.ofNat w j) := by
  intro heq
  have hoff := congrArg (fun x => x.2.toNat % 4) heq
  simp only [Address.add, BitVec.toNat_add, BitVec.toNat_ofNat, Nat.add_mod_mod,
    Nat.mod_mod_of_dvd _ (four_dvd_two_pow hw)] at hoff
  have ha' : 4 ∣ a.2.toNat := ha
  have hb' : 4 ∣ b.2.toNat := hb
  omega

theorem loadDword_bytewise (hw : 2 ≤ w) (hdst : dst.Aligned) (hsrc : src.Aligned) :
    Bytewise dst (loadDword src) (loadByte src) := by
  intro mem index hindex k hk
  have hread := hsrc.add hw hindex
  rw [loadDword, dword_eq hread, loadByte, ← add_add]
  -- the earlier bytes of the dword go to other places than the one that is read
  refine (CopyLoop.run_of_ne fun i hi => ?_).symm
  exact add_ne hw hread (hdst.add hw hindex) hk (hi.trans hk) hi.ne'

theorem splat_byte (val : Byte) {k : ℕ} (hk : k < 4) :
    (splat val).extractLsb' (8 * k) 8 = val := by
  ext i hi
  rw [BitVec.getElem_extractLsb', splat]
  -- of the four shifted bytes only the one of this place has a bit here
  interval_cases k <;> interval_cases i <;> simp

theorem splat_bytewise (val : Byte) :
    Bytewise dst (fun _ _ k => (splat val).extractLsb' (8 * k) 8) fun _ _ => val :=
  fun _ _ _ _ hk => splat_byte val hk

end

/-! ### Calls -/

section

variable [DecidableEq R]

def CallInst.dst (call : CallInst R w) : Pointer R w :=
  match call.intrinsic with
  | .memcpy dst _ | .memset dst _ => dst

/-- The value of a turn of the byte loop. -/
def CallInst.value (call : CallInst R w) : Memory R w → BitVec w → Byte :=
  match call.intrinsic with
  | .memcpy _ src => loadByte src.addr
  | .memset _ value => fun _ _ => BitVec.ofNat 8 value

/-- No byte is read that has been written before. -/
def CallInst.Apart (call : CallInst R w) : Prop :=
  match call.intrinsic with
  | .memcpy dst src => dst.addr.1 ≠ src.addr.1 ∨ dst.addr.2 = src.addr.2 ∨
      call.size ≤ dst.addr.2 - src.addr.2
  | .memset _ _ => True

variable {call : CallInst R w} {llvm7 : Bool}

/-- The value of a turn of the dword loop. -/
def CallInst.dvalue (call : CallInst R w) : Memory R w → BitVec w → ℕ → Byte :=
  match call.intrinsic with
  | .memcpy _ src => loadDword src.addr
  | .memset _ value => fun _ _ k => (splat (BitVec.ofNat 8 value)).extractLsb' (8 * k) 8

theorem run_bytes (h : call.routine.align = false) (fuel : ℕ) (mem : Memory R w) :
    call.run fuel mem =
      (bytes call.dst.addr call.value call.size fuel ⟨0, mem⟩).map Loop.mem := by
  obtain ⟨_ | _, size, operand3⟩ := call <;>
    simp only [CallInst.run, h, Option.map_eq_bind] <;> rfl

theorem run_dwords (h : call.routine.align = true) (fuel : ℕ) (mem : Memory R w) :
    call.run fuel mem = ((dwords call.dst.addr call.dvalue call.size fuel ⟨0, mem⟩).bind
      (bytes call.dst.addr call.value call.size fuel)).map Loop.mem := by
  obtain ⟨_ | _, size, operand3⟩ := call <;>
    simp only [CallInst.run, h, Option.map_eq_bind, Option.bind_assoc] <;> rfl

/-- In bytes every count is good. -/
theorem returns_bytes (h : call.routine.align = false) (mem : Memory R w) :
    Returns (call.run · mem) (whole call.dst.addr call.value call.size mem) := by
  refine ⟨call.size.toNat, fun fuel hfuel => ?_⟩
  have hloop : bytes call.dst.addr call.value call.size fuel ⟨0, mem⟩ = some _ :=
    bytes_eq mem (Nat.zero_le _) hfuel
  show call.run fuel mem = _
  rw [run_bytes h, hloop, Option.map_some, byteStep_whole]

theorem bytewise (hw : 2 ≤ w) (hp : ∀ p ∈ call.intrinsic.pointers, p.addr.Aligned) :
    call.dst.addr.Aligned ∧ Bytewise call.dst.addr call.dvalue call.value := by
  obtain ⟨⟨dst, src⟩ | ⟨dst, value⟩, size, operand3⟩ := call
  case memcpy =>
    have hdst := hp dst (List.mem_cons_self)
    have hsrc := hp src (List.mem_cons_of_mem _ List.mem_cons_self)
    exact ⟨hdst, loadDword_bytewise hw hdst hsrc⟩
  case memset => exact ⟨hp dst List.mem_cons_self, splat_bytewise _⟩

theorem returns_dwords (hw : 2 ≤ w) (h : call.routine.align = true)
    (hp : ∀ p ∈ call.intrinsic.pointers, p.addr.Aligned) (hsize : call.size.toNat + 4 < 2 ^ w)
    (mem : Memory R w) :
    Returns (call.run · mem) (whole call.dst.addr call.value call.size mem) := by
  obtain ⟨hdst, hvalue⟩ := bytewise hw hp
  refine ⟨call.size.toNat, fun fuel hfuel => ?_⟩
  show call.run fuel mem = _
  rw [run_dwords h, dwords_bytes_eq hw hdst hvalue mem hsize hfuel, Option.map_some,
    byteStep_whole]

/-- Within four of the largest count the routines with dwords do not end. -/
theorem not_returns_dwords (hw : 2 ≤ w) (h : call.routine.align = true)
    (hp : ∀ p ∈ call.intrinsic.pointers, p.addr.Aligned) (hsize : 2 ^ w ≤ call.size.toNat + 4)
    (mem m' : Memory R w) : ¬ Returns (call.run · mem) m' := by
  obtain ⟨hdst, hvalue⟩ := bytewise hw hp
  refine not_returns (fun fuel => ?_) m'
  rw [run_dwords h, dwords_eq_none hw hdst hvalue mem fuel hsize, Option.bind_none,
    Option.map_none]

omit [DecidableEq R] in
theorem places_zero (a : Address R w) : places a 0 = a :=
  Prod.ext rfl (BitVec.add_zero a.2)

omit [DecidableEq R] in
theorem safe_iff (dst src : Address R w) (size : BitVec w) :
    CopyLoop.Safe (places dst) (places src) size.toNat ↔
      dst.1 ≠ src.1 ∨ dst.2 = src.2 ∨ size ≤ dst.2 - src.2 := by
  have hdist : src.2 + (dst.2 - src.2) = dst.2 := by rw [BitVec.add_comm, BitVec.sub_add_cancel]
  constructor
  · intro h
    by_contra hcon
    simp only [not_or, not_not, BitVec.not_le] at hcon
    obtain ⟨hspace, hne, hlt⟩ := hcon
    have hj : (dst.2 - src.2).toNat < size.toNat := hlt
    have hpos : 0 < (dst.2 - src.2).toNat := by
      refine Nat.pos_of_ne_zero fun hzero => hne ?_
      rw [← hdist, BitVec.eq_of_toNat_eq (y := 0#w) hzero, BitVec.add_zero]
    -- the first byte that is written is read that many turns later
    have hfirst : places dst 0 = places src (dst.2 - src.2).toNat := by
      rw [places_zero, places, Address.add, BitVec.ofNat_toNat, BitVec.setWidth_eq, hdist, ← hspace]
    have hsame := h _ hj 0 hpos hfirst
    exact hpos.ne (distinct_places src size 0 _ (hpos.trans hj) hj hsame)
  · intro h j hj i hi hclash
    have hspace : dst.1 = src.1 := congrArg (·.1) hclash
    have hoff : dst.2 + BitVec.ofNat w i = src.2 + BitVec.ofNat w j := congrArg Prod.snd hclash
    rcases h with hne | heq | hle
    · exact absurd hspace hne
    · rw [← hclash, places, places, Address.add, Address.add, hspace, heq]
    · rw [← hdist, BitVec.add_assoc, BitVec.add_right_inj] at hoff
      have hnat := congrArg BitVec.toNat hoff
      rw [BitVec.toNat_add, toNat_ofNat_of_le (hi.le.trans hj.le), toNat_ofNat_of_le hj.le] at hnat
      have hle' : size.toNat ≤ (dst.2 - src.2).toNat := hle
      have hlt := (dst.2 - src.2).isLt
      -- the sum is beyond the count, or it wraps to less than `i`
      rcases Nat.lt_or_ge ((dst.2 - src.2).toNat + i) (2 ^ w) with hin | hwrap
      · rw [Nat.mod_eq_of_lt hin] at hnat
        omega
      · rw [Nat.mod_eq_sub_mod hwrap, Nat.mod_eq_of_lt (by omega)] at hnat
        omega

instance : Nontrivial Byte := ⟨0, 1, by decide⟩

/-- What the byte loop leaves is what was asked for, unless the ranges overlap. -/
theorem whole_exact_iff : (∀ mem, call.Exact mem (whole call.dst.addr call.value call.size mem)) ↔
    call.Apart := by
  obtain ⟨⟨dst, src⟩ | ⟨dst, value⟩, size, operand3⟩ := call
  case memset =>
    exact iff_of_true (fun mem => CopyLoop.written_run (distinct_places dst.addr size) _) trivial
  case memcpy =>
    exact (CopyLoop.copied_run_iff (distinct_places dst.addr size)).trans
      (safe_iff dst.addr src.addr size)

/-- The routine is right exactly when a constant operand 3 that 4 divides comes with pointers that
are known to be multiples of 4 and a count that is not within four of the largest, and a copy does
not read what it has written. -/
theorem lowering_iff (hw : 2 ≤ w) (hc : call.Consistent llvm7) :
    call.Correct llvm7 ↔ (isAligned call.operand3 = true →
      call.Known llvm7 ∧ call.size.toNat + 4 < 2 ^ w) ∧ call.Apart := by
  have hname : call.routine.align = isAligned call.operand3 := by
    obtain ⟨_ | _, _, _⟩ := call <;> rfl
  have haddr (hk : call.Known llvm7) : ∀ p ∈ call.intrinsic.pointers, p.addr.Aligned :=
    fun p hp => (hk p hp).2.trans (hc p hp (hk p hp).1)
  rw [← whole_exact_iff, ← hname]
  constructor
  · intro h
    have hsize (halign : call.routine.align = true) : call.size.toNat + 4 < 2 ^ w := by
      by_contra hlarge
      obtain ⟨m', hm', -⟩ := h.exact fun _ => 0
      exact not_returns_dwords hw halign (haddr (h.known halign)) (not_lt.mp hlarge) _ m' hm'
    refine ⟨fun halign => ⟨h.known halign, hsize halign⟩, fun mem => ?_⟩
    obtain ⟨m', hm', hexact⟩ := h.exact mem
    cases halign : call.routine.align with
    | false => exact (returns_bytes halign mem).unique hm' ▸ hexact
    | true =>
      have hwhole := returns_dwords hw halign (haddr (h.known halign)) (hsize halign) mem
      exact hwhole.unique hm' ▸ hexact
  · rintro ⟨hdword, hexact⟩
    refine ⟨fun mem => ⟨_, ?_, hexact mem⟩, fun halign => (hdword halign).1⟩
    cases halign : call.routine.align with
    | false => exact returns_bytes halign mem
    | true => exact returns_dwords hw halign (haddr (hdword halign).1) (hdword halign).2 mem

/-- Eight bytes, aligned on both sides. -/
def alignedCopy : CallInst Unit 32 := ⟨.memcpy ⟨.g, ((), 64), 4⟩ ⟨.g, ((), 16), 8⟩, 8, some 0⟩

theorem lowering_alignedCopy : alignedCopy.Correct true ↔ (isAligned alignedCopy.operand3 = true →
    alignedCopy.Known true ∧ alignedCopy.size.toNat + 4 < 2 ^ 32) ∧ alignedCopy.Apart :=
  lowering_iff (by decide) (by decide)

/-- Operand 3 is 0 because the copy is not volatile; nothing is known of the pointers. -/
def unknownCopy : CallInst Unit 32 := ⟨.memcpy ⟨.g, ((), 65), 1⟩ ⟨.g, ((), 17), 1⟩, 4, some 0⟩

theorem lowering_unknownCopy : unknownCopy.Consistent true ∧ ¬ unknownCopy.Correct true := by
  refine ⟨by decide, fun h => ?_⟩
  exact absurd (h.known rfl) (by decide)

end

end MemIntrinsics

end Llvm
