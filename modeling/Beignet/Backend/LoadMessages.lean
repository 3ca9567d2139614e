/-
The pattern of `LoadInstruction` (`gen_insn_selection.cpp`), one lane of it.

An untyped read leaves the two low bits of the address out and reads whole dwords; a byte gather
reads the bytes at the address.  Unaligned vectors of bytes and words are read as dwords, from the
aligned address on, and shifted; or four bytes at a time.

* `getElem?_readLoop`, `getElem?_readLoop_eight` — the running address: right for eight dwords,
  four dwords too far for the ninth;
* `byte_effectData` — shifted dwords;
* **`delivers_emit`** — what a selected message leaves in its registers.
-/
import Beignet.Lib.Aligned
import Beignet.Lib.Bytes
import Beignet.Lib.Writes
import Beignet.Llvm.MemoryInst

namespace Backend

namespace LoadMessages

open Aligned
open Bytes (byte)
open Llvm.MemoryInst

variable {w : ℕ}

abbrev Mem (w : ℕ) := BitVec w → BitVec 8

/-! ### Messages -/

section

variable (mem : Mem w)

/-- The dword at an address. -/
def dword (addr : BitVec w) : BitVec 32 := Bytes.load (fun k => mem (addr + BitVec.ofNat w k)) 0

def UNTYPED_READ (addr : BitVec w) (elemNum : ℕ) : List (BitVec 32) :=
  (List.range elemNum).map fun i => dword mem (align addr + BitVec.ofNat w (4 * i))

/-- The index counts dwords. -/
def DWORD_GATHER (addrDW : BitVec w) : BitVec 32 := dword mem (addrDW <<< 2)

def BYTE_GATHER (addr : BitVec w) (elemSize : ℕ) : BitVec 32 :=
  Bytes.load (fun k => if k < elemSize then mem (addr + BitVec.ofNat w k) else 0) 0

end

/-- What is written to the bytes of registers. -/
abbrev RegWrites := List ((Reg × ℕ) × BitVec 8)

/-- Some bytes of a dword, from `first` on. -/
def MOV (dst : Reg) (src : BitVec 32) (first size : ℕ) : RegWrites :=
  (List.range size).map fun k => ((dst, k), byte src (first + k))

def UNPACK_BYTE (dst : List Reg) (src : BitVec 32) (elemSize elemNum : ℕ) : RegWrites :=
  (List.range elemNum).flatMap fun i =>
    match dst[i]? with
    | some r => MOV r src (i * elemSize) elemSize
    | none => []

/-! ### The pattern -/

structure Device where
  slowByteGather : Bool
  /-- the addresses are not stateless -/
  legacyMode : Bool

section

variable (mem : Mem w) (addr : BitVec w) (tuple : List Reg)

/-- Two dwords. -/
def emitRead64 : RegWrites :=
  match tuple with
  | [r] => (UNTYPED_READ mem addr 2).zipIdx.flatMap fun (d, i) =>
      (List.range 4).map fun k => ((r, i * 4 + k), byte d k)
  | _ => []

def emitUntypedRead : RegWrites :=
  (tuple.zip (UNTYPED_READ mem addr tuple.length)).flatMap fun (r, d) => MOV r d 0 4

def emitDWordGather : RegWrites :=
  match tuple with
  | [r] => MOV r (DWORD_GATHER mem (addr >>> 2)) 0 4
  | _ => []

/-- Dwords to elements, `4 / typeSize` of each. -/
def unpackAll (typeSize : ℕ) (data : List (BitVec 32)) : RegWrites :=
  data.zipIdx.flatMap fun (d, i) =>
    let left := tuple.length - i * (4 / typeSize)
    UNPACK_BYTE (tuple.drop (i * 4 / typeSize)) d typeSize
      (if 4 / typeSize < left then 4 / typeSize else left)

def emitAlignedByteGather (typeSize : ℕ) : RegWrites :=
  unpackAll tuple typeSize (UNTYPED_READ mem addr ((typeSize * tuple.length + 3) / 4))

/-- The loop over the messages of at most four dwords; the fuel is the number of dwords. -/
def readLoop : ℕ → BitVec w → ℕ → ℕ → List (BitVec 32)
  | 0, _, _, _ => []
  | fuel + 1, alignedAddr, pos, remainedReg =>
    let width := if 4 < remainedReg then 4 else remainedReg
    let alignedAddr := if pos ≠ 0 then alignedAddr + BitVec.ofNat w (pos * 4) else alignedAddr
    UNTYPED_READ mem alignedAddr width ++
      if remainedReg - width = 0 then []
      else readLoop fuel alignedAddr (pos + width) (remainedReg - width)

def getEffectByteData (effectDataNum : ℕ) (tmp : List (BitVec 32)) : List (BitVec 32) :=
  (List.range effectDataNum).map fun i =>
    let shiftL := (addr.setWidth 32 &&& 3) <<< 3
    let shiftH := 32 - shiftL
    let tmpL := tmp.getD i 0 >>> shiftL
    if shiftH ≠ 32 then tmpL ||| tmp.getD (i + 1) 0 <<< shiftH else tmpL

/-- Unaligned elements from aligned dwords. -/
def emitEffectData (typeSize : ℕ) : RegWrites :=
  let effectDataNum := (typeSize * tuple.length + 3) / 4
  let tmp := readLoop mem (effectDataNum + 1) (align addr) 0 (effectDataNum + 1)
  unpackAll tuple typeSize (getEffectByteData addr effectDataNum tmp)

/-- Four bytes in each turn; the address of the loop is a dword. -/
def emitByteLoop : RegWrites :=
  let valueNum := tuple.length
  let loopCount := (valueNum + 3) / 4
  (List.range loopCount).flatMap fun i =>
    let addressForLoop :=
      if 1 < loopCount then (addr.setWidth 32 + BitVec.ofNat 32 (4 * i)).setWidth w else addr
    let valueLeft := valueNum - 4 * i
    UNPACK_BYTE tuple (BYTE_GATHER mem addressForLoop (if valueLeft = 2 then 2 else 4)) 1
      (if valueLeft < 4 then valueLeft else 4)

def readByteAsDWord (r : Reg) (elemSize : ℕ) : RegWrites :=
  let tmpData := (UNTYPED_READ mem (align addr) 1).getD 0 0
  MOV r (tmpData >>> ((addr.setWidth 32 &&& 3) <<< 3 : BitVec 32)) 0 elemSize

def emitUnalignedByteGather (slowByteGather : Bool) (typeSize : ℕ) : RegWrites :=
  match tuple with
  | [r] =>
    if slowByteGather then readByteAsDWord mem addr r typeSize
    else MOV r (BYTE_GATHER mem addr typeSize) 0 typeSize
  | tuple =>
    if slowByteGather || typeSize = 2 || (typeSize = 1 && (tuple.length = 16 || tuple.length = 8))
    then emitEffectData mem addr tuple typeSize
    else emitByteLoop mem addr tuple

def emit (slowByteGather isReadConstantLegacy aligned : Bool) (type : Family) : RegWrites :=
  if aligned && type = .QWORD then emitRead64 mem addr tuple
  else if aligned && type = .DWORD then
    if isReadConstantLegacy then emitDWordGather mem addr tuple
    else emitUntypedRead mem addr tuple
  else if aligned then emitAlignedByteGather mem addr tuple (getFamilySize type)
  else emitUnalignedByteGather mem addr tuple slowByteGather (getFamilySize type)

end

/-! ### Dwords -/

theorem byte_dword (mem : Mem w) (addr : BitVec w) {k : ℕ} (hk : k < 4) :
    byte (dword mem addr) k = mem (addr + BitVec.ofNat w k) := by
  rw [dword, Bytes.byte_load _ _ hk, Nat.zero_add]

theorem byte_gather (mem : Mem w) (addr : BitVec w) {n k : ℕ} (hk : k < 4) (hn : k < n) :
    byte (BYTE_GATHER mem addr n) k = mem (addr + BitVec.ofNat w k) := by
  rw [BYTE_GATHER, Bytes.byte_load _ _ hk, Nat.zero_add, if_pos hn]

theorem getElem?_untypedRead (mem : Mem w) (addr : BitVec w) {n i : ℕ} (hi : i < n) :
    (UNTYPED_READ mem addr n)[i]? = some (dword mem (align addr + BitVec.ofNat w (4 * i))) := by
  rw [UNTYPED_READ, List.getElem?_map, List.getElem?_range hi]
  rfl

/-! ### Messages -/

/-- All bytes of the elements are written, and what is written is what is at their addresses. -/
structure Delivers (mem : Mem w) (addr : BitVec w) (tuple : List Reg) (size : ℕ)
    (l : RegWrites) : Prop where
  only : ∀ p ∈ l, ∃ i k r, tuple[i]? = some r ∧ k < size ∧
    p = ((r, k), mem (addr + BitVec.ofNat w (i * size + k)))
  all : ∀ i r, tuple[i]? = some r → ∀ k < size,
    ((r, k), mem (addr + BitVec.ofNat w (i * size + k))) ∈ l

theorem mem_mov {dst : Reg} {src : BitVec 32} {first size : ℕ} {p : (Reg × ℕ) × BitVec 8} :
    p ∈ MOV dst src first size ↔ ∃ k < size, p = ((dst, k), byte src (first + k)) := by
  simp only [MOV, List.mem_map, List.mem_range, eq_comm]

theorem mem_unpack {dst : List Reg} {src : BitVec 32} {elemSize elemNum : ℕ}
    {p : (Reg × ℕ) × BitVec 8} :
    p ∈ UNPACK_BYTE dst src elemSize elemNum ↔ ∃ i < elemNum, ∃ r, dst[i]? = some r ∧
      ∃ k < elemSize, p = ((r, k), byte src (i * elemSize + k)) := by
  simp only [UNPACK_BYTE, List.mem_flatMap, List.mem_range]
  refine exists_congr fun i => and_congr_right fun _ => ?_
  cases dst[i]? with
  | none => simp
  | some r => simp [mem_mov]

/-- Dwords of consecutive bytes. -/
theorem delivers_unpackAll {mem : Mem w} {addr : BitVec w} {tuple : List Reg} {typeSize : ℕ}
    {data : List (BitVec 32)} (hsize : typeSize = 1 ∨ typeSize = 2)
    (hlen : data.length = (typeSize * tuple.length + 3) / 4)
    (hdata : ∀ i d, data[i]? = some d → ∀ k < 4,
      4 * i + k < typeSize * tuple.length → byte d k = mem (addr + BitVec.ofNat w (4 * i + k))) :
    Delivers mem addr tuple typeSize (unpackAll tuple typeSize data) where
  only := by
    intro p hp
    obtain ⟨⟨d, i⟩, hd, hp⟩ := List.mem_flatMap.mp hp
    have hd := List.mem_zipIdx_iff_getElem?.mp hd
    obtain ⟨j, hj, r, hr, k, hk, rfl⟩ := mem_unpack.mp hp
    rw [List.getElem?_drop] at hr
    have hlt := (List.getElem?_eq_some_iff.mp hr).1
    refine ⟨_, k, r, hr, hk, ?_⟩
    have hindex : (i * 4 / typeSize + j) * typeSize + k = 4 * i + (j * typeSize + k) ∧
        j * typeSize + k < 4 := by
      rcases hsize with rfl | rfl <;> split_ifs at hj <;> omega
    rw [hindex.1, hdata i d hd _ hindex.2]
    rcases hsize with rfl | rfl <;> omega
  all := by
    intro idx r hr k hk
    have hlt := (List.getElem?_eq_some_iff.mp hr).1
    have hi : idx * typeSize / 4 < data.length := by
      rcases hsize with rfl | rfl <;> omega
    have hd := List.getElem?_eq_getElem hi
    have hindex : idx * typeSize / 4 * 4 / typeSize + idx % (4 / typeSize) = idx ∧
        idx * typeSize + k = 4 * (idx * typeSize / 4) + (idx % (4 / typeSize) * typeSize + k) ∧
        idx % (4 / typeSize) * typeSize + k < 4 := by
      rcases hsize with rfl | rfl <;> omega
    refine List.mem_flatMap.mpr ⟨⟨_, idx * typeSize / 4⟩, List.mem_zipIdx_iff_getElem?.mpr hd,
      mem_unpack.mpr ⟨idx % (4 / typeSize), ?_, r, ?_, k, hk, ?_⟩⟩
    · rcases hsize with rfl | rfl <;> split_ifs <;> omega
    · rw [List.getElem?_drop, hindex.1, hr]
    · rw [hdata _ _ hd _ hindex.2.2 (by rcases hsize with rfl | rfl <;> omega), hindex.2.1]

/-! ### Unaligned addresses -/

/-- The dwords from an aligned address on. -/
theorem getElem?_untypedRead_of_dvd (mem : Mem w) {addr : BitVec w} (h : 4 ∣ addr.toNat)
    {n i : ℕ} (hi : i < n) :
    (UNTYPED_READ mem addr n)[i]? = some (dword mem (addr + BitVec.ofNat w (4 * i))) := by
  rw [getElem?_untypedRead mem addr hi, align_of_dvd h]

theorem length_untypedRead (mem : Mem w) (addr : BitVec w) (n : ℕ) :
    (UNTYPED_READ mem addr n).length = n := by
  simp [UNTYPED_READ]

/-- One message. -/
theorem readLoop_le_four (mem : Mem w) (addr : BitVec w) {n : ℕ} (hn : 0 < n) (hle : n ≤ 4) :
    readLoop mem n addr 0 n = UNTYPED_READ mem addr n := by
  obtain ⟨m, rfl⟩ := Nat.exists_eq_succ_of_ne_zero hn.ne'
  have hwidth : ¬ 4 < m + 1 := by omega
  simp only [Nat.succ_eq_add_one, readLoop, ne_eq, not_true_eq_false, if_false, if_neg hwidth,
    Nat.sub_self, if_true, List.append_nil]

/-- The second message follows the first. -/
theorem readLoop_second (mem : Mem w) (addr : BitVec w) {n : ℕ} (hlt : 4 < n) (hle : n ≤ 8) :
    readLoop mem n addr 0 n =
      UNTYPED_READ mem addr 4 ++ UNTYPED_READ mem (addr + BitVec.ofNat w 16) (n - 4) := by
  obtain ⟨m, rfl⟩ : ∃ m, n = m + 2 := ⟨n - 2, by omega⟩
  have hleft : ¬ m + 2 - 4 = 0 := by omega
  have hwidth : ¬ 4 < m + 2 - 4 := by omega
  simp only [readLoop, ne_eq, not_true_eq_false, if_false, if_pos hlt, if_neg hleft, if_neg hwidth,
    Nat.sub_self, if_true, List.append_nil, Nat.zero_add, Nat.reduceMul, OfNat.ofNat_ne_zero,
    not_false_eq_true]

/-- The third message is 32 bytes after the second, and not 16. -/
theorem readLoop_third (mem : Mem w) (addr : BitVec w) {n : ℕ} (hlt : 8 < n) :
    ∃ rest, readLoop mem n addr 0 n =
      UNTYPED_READ mem addr 4 ++ (UNTYPED_READ mem (addr + BitVec.ofNat w 16) 4 ++
        (UNTYPED_READ mem (addr + BitVec.ofNat w 48) (if 4 < n - 8 then 4 else n - 8) ++
          rest)) := by
  obtain ⟨m, rfl⟩ : ∃ m, n = m + 3 := ⟨n - 3, by omega⟩
  have hone : 4 < m + 3 := by omega
  have hleft : ¬ m + 3 - 4 = 0 := by omega
  have htwo : 4 < m + 3 - 4 := by omega
  have hleft' : ¬ m + 3 - 8 = 0 := by omega
  have hsub : m + 3 - 4 - 4 = m + 3 - 8 := by omega
  simp only [readLoop, ne_eq, not_true_eq_false, if_false, if_pos hone, if_neg hleft, if_pos htwo,
    Nat.zero_add, Nat.reduceMul, Nat.reduceAdd, OfNat.ofNat_ne_zero,
    not_false_eq_true, if_true, ofNat_add, hsub]
  rw [if_neg hleft']
  exact ⟨_, rfl⟩

/-- Up to eight dwords are those from the address on. -/
theorem getElem?_readLoop (mem : Mem w) {addr : BitVec w} (hw : 2 ≤ w) (h : 4 ∣ addr.toNat)
    {n i : ℕ} (hi : i < n) (hle : n ≤ 8) :
    (readLoop mem n addr 0 n)[i]? = some (dword mem (addr + BitVec.ofNat w (4 * i))) := by
  by_cases hn : n ≤ 4
  · rw [readLoop_le_four mem addr (by omega) hn, getElem?_untypedRead_of_dvd mem h hi]
  · rw [readLoop_second mem addr (by omega) hle]
    by_cases hi4 : i < 4
    · rw [List.getElem?_append_left (by rw [length_untypedRead]; exact hi4),
        getElem?_untypedRead_of_dvd mem h hi4]
    · rw [List.getElem?_append_right (by rw [length_untypedRead]; omega), length_untypedRead,
        getElem?_untypedRead_of_dvd mem (dvd_add hw h (by decide)) (by omega), ofNat_add]
      congr 4
      omega

/-- The ninth dword is four dwords too far. -/
theorem getElem?_readLoop_eight (mem : Mem w) {addr : BitVec w} (hw : 2 ≤ w) (h : 4 ∣ addr.toNat)
    {n : ℕ} (hlt : 8 < n) :
    (readLoop mem n addr 0 n)[8]? = some (dword mem (addr + BitVec.ofNat w 48)) := by
  obtain ⟨rest, hloop⟩ := readLoop_third mem addr hlt
  rw [hloop, List.getElem?_append_right (by rw [length_untypedRead]; decide), length_untypedRead,
    List.getElem?_append_right (by rw [length_untypedRead]), length_untypedRead,
    List.getElem?_append_left (by rw [length_untypedRead]; split <;> omega),
    getElem?_untypedRead_of_dvd mem (dvd_add hw h (by decide)) (by split <;> omega), ofNat_add]

/-- The shift is the place of the address in its dword, in bits. -/
theorem shift_toNat (addr : BitVec w) :
    ((addr.setWidth 32 &&& 3) <<< 3).toNat = 8 * (addr.toNat % 4) := by
  have hand : (addr.setWidth 32 &&& 3).toNat = addr.toNat % 4 := by
    have hthree : (3 : BitVec 32).toNat = 2 ^ 2 - 1 := rfl
    rw [BitVec.toNat_and, BitVec.toNat_setWidth, hthree, Nat.and_two_pow_sub_one_eq_mod]
    omega
  rw [BitVec.toNat_shiftLeft, hand, Nat.shiftLeft_eq]
  omega

/-- A shifted dword. -/
theorem byte_shifted (addr : BitVec w) (d : BitVec 32) (k : ℕ) :
    byte (d >>> ((addr.setWidth 32 &&& 3) <<< 3)) k = byte d (addr.toNat % 4 + k) := by
  rw [BitVec.ushiftRight_eq', shift_toNat, Bytes.byte_shiftRight]

theorem shiftH_toNat {s : BitVec 32} (h : s.toNat ≤ 32) : (32 - s).toNat = 32 - s.toNat := by
  have h32 : (32 : BitVec 32).toNat = 32 := rfl
  rw [BitVec.toNat_sub, h32]
  omega

/-- Two dwords make the four bytes from the address on. -/
theorem byte_getEffectByteData (addr : BitVec w) {n i : ℕ} (hi : i < n) (tmp : List (BitVec 32))
    {k : ℕ} (hk : k < 4) :
    ∃ d, (getEffectByteData addr n tmp)[i]? = some d ∧
      byte d k = if addr.toNat % 4 + k < 4 then byte (tmp.getD i 0) (addr.toNat % 4 + k)
        else byte (tmp.getD (i + 1) 0) (addr.toNat % 4 + k - 4) := by
  refine ⟨_, by rw [getEffectByteData, List.getElem?_map, List.getElem?_range hi]; rfl, ?_⟩
  have hshifted := byte_shifted addr (tmp.getD i 0) k
  have hL := shift_toNat addr
  generalize (addr.setWidth 32 &&& 3) <<< 3 = shiftL at hshifted hL
  have hH : (32 - shiftL).toNat = 32 - 8 * (addr.toNat % 4) := by
    rw [shiftH_toNat (by omega), hL]
  have h32 : (32 : BitVec 32).toNat = 32 := rfl
  show byte (if 32 - shiftL ≠ 32 then _ else _) k = _
  by_cases hzero : addr.toNat % 4 = 0
  · -- the address is aligned, and the upper dword is not used
    have heq : 32 - shiftL = 32 := by
      refine BitVec.eq_of_toNat_eq ?_
      rw [hH, h32, hzero]
    rw [if_neg (not_not_intro heq), hshifted, if_pos (by omega)]
  · have hne : 32 - shiftL ≠ 32 := by
      intro heq
      rw [heq, h32] at hH
      omega
    have hbytes : 32 - 8 * (addr.toNat % 4) = 8 * (4 - addr.toNat % 4) := by omega
    rw [if_pos hne, Bytes.byte_or, hshifted, BitVec.shiftLeft_eq', hH, hbytes,
      Bytes.byte_shiftLeft _ hk]
    by_cases hlow : addr.toNat % 4 + k < 4
    · rw [if_pos (by omega), if_pos hlow]
      exact BitVec.or_zero
    · rw [if_neg (by omega), if_neg hlow, Bytes.byte_eq_zero _ (by omega)]
      refine BitVec.zero_or.trans ?_
      congr 1
      omega

/-! ### Selected messages -/

section

variable {mem : Mem w} {addr : BitVec w} {tuple : List Reg}

theorem delivers_emitRead64 (h : 4 ∣ addr.toNat) (hlen : tuple.length = 1) :
    Delivers mem addr tuple 8 (emitRead64 mem addr tuple) := by
  obtain ⟨r, rfl⟩ := List.length_eq_one_iff.mp hlen
  have hmem : ∀ p, p ∈ emitRead64 mem addr [r] ↔ ∃ i < 2, ∃ k < 4,
      p = ((r, i * 4 + k), mem (addr + BitVec.ofNat w (i * 4 + k))) := by
    intro p
    simp only [emitRead64, List.mem_flatMap, List.mem_map, List.mem_range, Prod.exists,
      List.mem_zipIdx_iff_getElem?]
    constructor
    · rintro ⟨d, i, hd, k, hk, rfl⟩
      have hi := (List.getElem?_eq_some_iff.mp hd).1
      rw [length_untypedRead] at hi
      rw [getElem?_untypedRead_of_dvd mem h hi, Option.some.injEq] at hd
      refine ⟨i, hi, k, hk, ?_⟩
      rw [← hd, byte_dword _ _ hk, ofNat_add, Nat.mul_comm]
    · rintro ⟨i, hi, k, hk, rfl⟩
      refine ⟨_, i, getElem?_untypedRead_of_dvd mem h hi, k, hk, ?_⟩
      rw [byte_dword _ _ hk, ofNat_add, Nat.mul_comm]
  refine ⟨fun p hp => ?_, fun idx r' hr k hk => ?_⟩
  · obtain ⟨i, hi, k, hk, rfl⟩ := (hmem p).mp hp
    refine ⟨0, i * 4 + k, r, rfl, by omega, ?_⟩
    rw [Nat.zero_mul, Nat.zero_add]
  · obtain rfl : idx = 0 := by simpa using (List.getElem?_eq_some_iff.mp hr).1
    obtain rfl : r = r' := by simpa using hr
    refine (hmem _).mpr ⟨k / 4, by omega, k % 4, Nat.mod_lt _ (by decide), ?_⟩
    rw [Nat.div_add_mod', Nat.zero_mul, Nat.zero_add]

theorem delivers_emitUntypedRead (h : 4 ∣ addr.toNat) :
    Delivers mem addr tuple 4 (emitUntypedRead mem addr tuple) where
  only := by
    intro p hp
    obtain ⟨⟨r, d⟩, hrd, hp⟩ := List.mem_flatMap.mp hp
    obtain ⟨k, hk, rfl⟩ := mem_mov.mp hp
    obtain ⟨i, hi⟩ := List.mem_iff_getElem?.mp hrd
    rw [List.getElem?_zip_eq_some] at hi
    have hlt := (List.getElem?_eq_some_iff.mp hi.1).1
    rw [getElem?_untypedRead_of_dvd mem h hlt, Option.some.injEq] at hi
    refine ⟨i, k, r, hi.1, hk, ?_⟩
    show ((r, k), byte d (0 + k)) = _
    rw [← show _ = d from hi.2, Nat.zero_add, byte_dword _ _ hk, ofNat_add, Nat.mul_comm]
  all := by
    intro i r hr k hk
    have hlt := (List.getElem?_eq_some_iff.mp hr).1
    refine List.mem_flatMap.mpr ⟨(r, dword mem (addr + BitVec.ofNat w (4 * i))),
      List.mem_iff_getElem?.mpr ⟨i, ?_⟩, mem_mov.mpr ⟨k, hk, ?_⟩⟩
    · rw [List.getElem?_zip_eq_some]
      exact ⟨hr, getElem?_untypedRead_of_dvd mem h hlt⟩
    · rw [Nat.zero_add, byte_dword _ _ hk, ofNat_add, Nat.mul_comm]

/-- One element. -/
theorem delivers_mov {r : Reg} {src : BitVec 32} {first size : ℕ}
    (h : ∀ k < size, byte src (first + k) = mem (addr + BitVec.ofNat w k)) :
    Delivers mem addr [r] size (MOV r src first size) where
  only := by
    intro p hp
    obtain ⟨k, hk, rfl⟩ := mem_mov.mp hp
    refine ⟨0, k, r, rfl, hk, ?_⟩
    rw [h k hk, Nat.zero_mul, Nat.zero_add]
  all := by
    intro i r' hr k hk
    obtain rfl : i = 0 := by
      have := (List.getElem?_eq_some_iff.mp hr).1
      simpa using this
    obtain rfl : r = r' := by simpa using hr
    exact mem_mov.mpr ⟨k, hk, by rw [h k hk, Nat.zero_mul, Nat.zero_add]⟩

theorem delivers_emitDWordGather (h : 4 ∣ addr.toNat) (hlen : tuple.length = 1) :
    Delivers mem addr tuple 4 (emitDWordGather mem addr tuple) := by
  obtain ⟨r, rfl⟩ := List.length_eq_one_iff.mp hlen
  refine delivers_mov fun k hk => ?_
  rw [DWORD_GATHER, ← align_eq_shift, align_of_dvd h, Nat.zero_add, byte_dword _ _ hk]

theorem delivers_emitAlignedByteGather (h : 4 ∣ addr.toNat) {typeSize : ℕ}
    (hsize : typeSize = 1 ∨ typeSize = 2) :
    Delivers mem addr tuple typeSize (emitAlignedByteGather mem addr tuple typeSize) := by
  refine delivers_unpackAll hsize (length_untypedRead mem addr _) fun i d hd k hk _ => ?_
  have hlt := (List.getElem?_eq_some_iff.mp hd).1
  rw [length_untypedRead] at hlt
  rw [getElem?_untypedRead_of_dvd mem h hlt, Option.some.injEq] at hd
  rw [← hd, byte_dword _ _ hk, ofNat_add]

/-- Up to seven shifted dwords are those from the address on. -/
theorem byte_effectData (hw : 2 ≤ w) {n i k : ℕ} (hn : n ≤ 7) (hk : k < 4) {d : BitVec 32}
    (hd : (getEffectByteData addr n (readLoop mem (n + 1) (align addr) 0 (n + 1)))[i]? = some d) :
    byte d k = mem (addr + BitVec.ofNat w (4 * i + k)) := by
  have hi := (List.getElem?_eq_some_iff.mp hd).1
  rw [getEffectByteData, List.length_map, List.length_range] at hi
  have hread : ∀ j < n + 1, ∀ b < 4,
      byte ((readLoop mem (n + 1) (align addr) 0 (n + 1)).getD j 0) b =
        mem (align addr + BitVec.ofNat w (4 * j + b)) := by
    intro j hj b hb
    rw [List.getD_eq_getElem?_getD, getElem?_readLoop mem hw (dvd_align addr) hj (by omega),
      Option.getD_some, byte_dword _ _ hb, ofNat_add]
  obtain ⟨d', hd', hbyte⟩ := byte_getEffectByteData addr hi
    (readLoop mem (n + 1) (align addr) 0 (n + 1)) hk
  obtain rfl : d' = d := Option.some.inj (hd'.symm.trans hd)
  have hfour := Nat.mod_lt addr.toNat (show 0 < 4 by decide)
  have haddr : addr + BitVec.ofNat w (4 * i + k) =
      align addr + BitVec.ofNat w (addr.toNat % 4 + (4 * i + k)) := by
    rw [← ofNat_add (align addr), ← align_add]
  rw [hbyte, haddr]
  split
  · rw [hread i (by omega) _ (by omega)]
    congr 3
    omega
  · rw [hread (i + 1) (by omega) _ (by omega)]
    congr 3
    omega

/-- At most 16 bytes; then there are at most two messages. -/
theorem delivers_emitEffectData (hw : 2 ≤ w) {typeSize : ℕ} (hsize : typeSize = 1 ∨ typeSize = 2)
    (hle : typeSize * tuple.length ≤ 16) :
    Delivers mem addr tuple typeSize (emitEffectData mem addr tuple typeSize) := by
  refine delivers_unpackAll hsize (by rw [getEffectByteData, List.length_map, List.length_range])
    fun i d hd k hk _ => byte_effectData hw (by omega) hk hd

/-- Four bytes are one turn of the loop. -/
theorem delivers_emitByteLoop (hpos : 0 < tuple.length) (hle : tuple.length ≤ 4) :
    Delivers mem addr tuple 1 (emitByteLoop mem addr tuple) := by
  have hcount : (tuple.length + 3) / 4 = 1 := by omega
  have hloop : emitByteLoop mem addr tuple =
      UNPACK_BYTE tuple (BYTE_GATHER mem addr (if tuple.length = 2 then 2 else 4)) 1
        (if tuple.length < 4 then tuple.length else 4) := by
    simp only [emitByteLoop, hcount, List.range_one, List.flatMap_cons, List.flatMap_nil,
      List.append_nil, Nat.mul_zero, Nat.sub_zero, lt_self_iff_false, if_false]
  have hbyte : ∀ i < tuple.length,
      byte (BYTE_GATHER mem addr (if tuple.length = 2 then 2 else 4)) i =
        mem (addr + BitVec.ofNat w i) := by
    intro i hi
    exact byte_gather mem addr (by omega) (by split <;> omega)
  rw [hloop]
  refine ⟨fun p hp => ?_, fun i r hr k hk => ?_⟩
  · obtain ⟨i, hi, r, hr, k, hk, rfl⟩ := mem_unpack.mp hp
    obtain rfl : k = 0 := by omega
    refine ⟨i, 0, r, hr, hk, ?_⟩
    rw [Nat.mul_one, Nat.add_zero, hbyte i (List.getElem?_eq_some_iff.mp hr).1]
  · have hi := (List.getElem?_eq_some_iff.mp hr).1
    obtain rfl : k = 0 := by omega
    refine mem_unpack.mpr ⟨i, by split <;> omega, r, hr, 0, hk, ?_⟩
    rw [Nat.mul_one, Nat.add_zero, hbyte i hi]

/-- An element that stays in its dword. -/
theorem delivers_readByteAsDWord {r : Reg} {size : ℕ} (h : addr.toNat % 4 + size ≤ 4) :
    Delivers mem addr [r] size (readByteAsDWord mem addr r size) := by
  refine delivers_mov fun k hk => ?_
  rw [Nat.zero_add, byte_shifted, List.getD_eq_getElem?_getD,
    getElem?_untypedRead_of_dvd mem (dvd_align addr) (by decide), Option.getD_some,
    byte_dword _ _ (by omega), Nat.mul_zero, ofNat_add, Nat.zero_add, ← ofNat_add, ← align_add]

/-- What the pattern takes: bytes at an aligned address, or not more than a message of them. -/
structure Readable (slowByteGather isReadConstantLegacy aligned : Bool) (type : Family)
    (n : ℕ) (addr : BitVec w) : Prop where
  pos : 0 < n
  dvd : aligned = true → 4 ∣ addr.toNat
  single : aligned = true → type = .QWORD ∨ (type = .DWORD ∧ isReadConstantLegacy = true) → n = 1
  small : aligned = false → getFamilySize type = 1 ∨ getFamilySize type = 2
  bytes : aligned = false → getFamilySize type * n ≤ 16
  elements : aligned = false → n ≤ 4 ∨ n = 8 ∨ n = 16
  slow : aligned = false → slowByteGather = true → n = 1 →
    addr.toNat % 4 + getFamilySize type ≤ 4

theorem delivers_emitUnalignedByteGather (hw : 2 ≤ w) {slow legacy : Bool} {type : Family}
    (h : Readable slow legacy false type tuple.length addr) :
    Delivers mem addr tuple (getFamilySize type)
      (emitUnalignedByteGather mem addr tuple slow (getFamilySize type)) := by
  have hsize := h.small rfl
  rw [emitUnalignedByteGather.eq_def]
  split
  · next r =>
    split
    · next hslow => exact delivers_readByteAsDWord (h.slow rfl hslow rfl)
    · refine delivers_mov fun k hk => ?_
      rw [Nat.zero_add, byte_gather mem addr (by omega) hk]
  · split
    · exact delivers_emitEffectData hw hsize (h.bytes rfl)
    · next hgroup =>
      simp only [Bool.or_eq_true, Bool.and_eq_true, decide_eq_true_eq, not_or, not_and] at hgroup
      obtain ⟨⟨-, hne⟩, hlen⟩ := hgroup
      have hone : getFamilySize type = 1 := hsize.resolve_right hne
      have hfour : tuple.length ≤ 4 := by
        have := hlen hone
        have := h.elements rfl
        omega
      rw [hone]
      exact delivers_emitByteLoop h.pos hfour

theorem delivers_emit (hw : 2 ≤ w) {slow legacy aligned : Bool} {type : Family}
    (h : Readable slow legacy aligned type tuple.length addr) :
    Delivers mem addr tuple (getFamilySize type)
      (emit mem addr tuple slow legacy aligned type) := by
  rw [emit]
  cases aligned with
  | true =>
    simp only [Bool.true_and, decide_eq_true_eq, if_true]
    split_ifs with hQ hD hlegacy
    · rw [hQ]
      exact delivers_emitRead64 (h.dvd rfl) (h.single rfl (.inl hQ))
    · rw [hD]
      exact delivers_emitDWordGather (h.dvd rfl) (h.single rfl (.inr ⟨hD, hlegacy⟩))
    · rw [hD]
      exact delivers_emitUntypedRead (h.dvd rfl)
    · refine delivers_emitAlignedByteGather (h.dvd rfl) ?_
      cases type <;> simp_all [getFamilySize]
  | false =>
    simp only [Bool.false_and, Bool.false_eq_true, if_false]
    exact delivers_emitUnalignedByteGather hw h

end

end LoadMessages

end Backend
