/-
Whole loads: the messages of `MemoryInstHelper` as the load pattern selects them, one lane.

* `loads_of_parts` — messages of parts that cover all elements;
* `emitLoadOrStore_parts` — what is not read byte by byte is one part, batches or elements;
* `loads_unalignedDQ`, `not_loads_of_many` — dwords and qwords byte by byte;
* **`loads_iff`** — which loads deliver the bytes at their addresses.
-/
import Beignet.Backend.LoadMessages

namespace Backend

namespace LoadMessages

open Aligned
open Bytes (byte)
open Llvm.MemoryInst

variable {w : ℕ}

/-! ### Whole loads -/

/-- A load of `elemNum` elements at a recorded alignment. -/
def loadAccess (family : Family) (elemNum alignment : ℕ) (constant : Bool) : Access where
  isLoad := true
  family := family
  elemNum := elemNum
  dwAligned := alignment % 4 = 0
  constant := constant
  undef := fun _ => false

abbrev Regs := Reg × ℕ → BitVec 8

/-- Constants have an address space of their own in legacy mode. -/
def isReadConstantLegacy (d : Device) (I : Access) : Bool := d.legacyMode && I.constant

def messageWrites (d : Device) (I : Access) (mem : Mem w) (addr : BitVec w) (type : Family)
    (offset : ℕ) (tuple : List Reg) : RegWrites :=
  emit mem (addr + BitVec.ofNat w offset) tuple d.slowByteGather (isReadConstantLegacy d I)
    I.dwAligned type

def exec (d : Device) (I : Access) (mem : Mem w) (addr : BitVec w) (regs : Regs) :
    Insn → Option Regs
  | .message type offset tuple =>
    some (Writes.write (messageWrites d I mem addr type offset tuple) regs)
  | .BITCAST dstType srcType dst src =>
    (bitcast dstType srcType dst src regs).map fun l => Writes.write l regs

/-- The bytes at every address that has the alignment are delivered. -/
def Loads (w : ℕ) (d : Device) (I : Access) (alignment : ℕ) : Prop :=
  ∀ (mem : Mem w) (addr : BitVec w) (regs : Regs), alignment ∣ addr.toNat →
    ∃ regs', (emitLoadOrStore I).foldlM (exec d I mem addr) regs = some regs' ∧
      ∀ i < I.elemNum, ∀ k < elemSize I,
        regs' (.value i, k) = mem (addr + BitVec.ofNat w (i * elemSize I + k))

/-! ### Parts -/

section

variable {d : Device} {I : Access} {mem : Mem w} {addr : BitVec w}

theorem foldlM_messages {l : List Insn}
    (hl : ∀ insn ∈ l, ∃ type offset tuple, insn = .message type offset tuple) (regs : Regs) :
    ∃ ws, l.foldlM (exec d I mem addr) regs = some (Writes.write ws regs) ∧
      ∀ p, p ∈ ws ↔ ∃ type offset tuple, .message type offset tuple ∈ l ∧
        p ∈ messageWrites d I mem addr type offset tuple := by
  induction l generalizing regs with
  | nil => exact ⟨[], rfl, by simp⟩
  | cons insn l ih =>
    obtain ⟨type, offset, tuple, rfl⟩ := hl insn List.mem_cons_self
    obtain ⟨ws, hrun, hmem⟩ := ih (fun insn h => hl insn (List.mem_cons_of_mem _ h))
      (Writes.write (messageWrites d I mem addr type offset tuple) regs)
    refine ⟨messageWrites d I mem addr type offset tuple ++ ws, ?_, fun p => ?_⟩
    · rw [List.foldlM_cons, Writes.write_append]
      exact hrun
    · rw [List.mem_append, hmem]
      constructor
      · rintro (hp | ⟨type', offset', tuple', hin, hp⟩)
        · exact ⟨type, offset, tuple, List.mem_cons_self, hp⟩
        · exact ⟨type', offset', tuple', List.mem_cons_of_mem _ hin, hp⟩
      · rintro ⟨type', offset', tuple', hin, hp⟩
        rcases List.mem_cons.mp hin with heq | hin
        · obtain ⟨rfl, rfl, rfl⟩ := Insn.message.inj heq
          exact .inl hp
        · exact .inr ⟨type', offset', tuple', hin, hp⟩

/-- The message of some elements in a row, in the place of the first. -/
def part (I : Access) (start n : ℕ) : Insn :=
  .message I.family (start * elemSize I) (getValueTuple I start n)

/-- Messages of parts that cover all elements. -/
theorem loads_of_parts (hw : 2 ≤ w) (hundef : ∀ i, I.undef i = false) {l : List Insn}
    (hparts : ∀ insn ∈ l, ∃ start n, insn = part I start n ∧
      Readable d.slowByteGather (isReadConstantLegacy d I) I.dwAligned I.family n
        (addr + BitVec.ofNat w (start * elemSize I)))
    (hcover : ∀ i < I.elemNum, ∃ start n, part I start n ∈ l ∧ start ≤ i ∧ i < start + n)
    (regs : Regs) :
    ∃ regs', l.foldlM (exec d I mem addr) regs = some regs' ∧
      ∀ i < I.elemNum, ∀ k < elemSize I,
        regs' (.value i, k) = mem (addr + BitVec.ofNat w (i * elemSize I + k)) := by
  have hmessages : ∀ insn ∈ l, ∃ type offset tuple, insn = .message type offset tuple := by
    intro insn h
    obtain ⟨start, n, rfl, -⟩ := hparts insn h
    exact ⟨_, _, _, rfl⟩
  obtain ⟨ws, hrun, hmem⟩ := @foldlM_messages w d I mem addr l hmessages regs
  have hdelivers : ∀ start n, part I start n ∈ l →
      Delivers mem (addr + BitVec.ofNat w (start * elemSize I)) (getValueTuple I start n)
        (elemSize I) (messageWrites d I mem addr I.family (start * elemSize I)
          (getValueTuple I start n)) := by
    intro start n hin
    obtain ⟨start', n', heq, hread⟩ := hparts _ hin
    obtain ⟨-, hstart, htuple⟩ := Insn.message.inj heq
    have hlen : n = n' := by
      have := congrArg List.length htuple
      simpa [getValueTuple] using this
    refine delivers_emit hw ?_
    rw [hstart, getValueTuple, List.length_map, List.length_range, hlen]
    exact hread
  refine ⟨_, hrun, fun i hi k hk => Writes.write_of_mem ?_ fun p hp hpx => ?_⟩
  · obtain ⟨start, n, hin, hle, hlt⟩ := hcover i hi
    refine ⟨_, (hmem _).mpr ⟨_, _, _, hin,
      (hdelivers start n hin).all (i - start) (.value i) ?_ k hk⟩, rfl⟩
    rw [getElem?_getValueTuple, hundef, if_neg (by decide), Nat.add_sub_cancel' hle]
    exact ⟨by omega, rfl⟩
  · obtain ⟨type, offset, tuple, hin, hp⟩ := (hmem p).mp hp
    obtain ⟨start, n, heq, -⟩ := hparts _ hin
    obtain ⟨rfl, rfl, rfl⟩ := Insn.message.inj heq
    obtain ⟨j, b, r, hr, hb, rfl⟩ := (hdelivers start n hin).only p hp
    rw [getElem?_getValueTuple, hundef, if_neg (by decide)] at hr
    obtain ⟨-, rfl⟩ := hr
    obtain ⟨hvalue, rfl⟩ := Prod.mk.inj hpx
    obtain rfl := Reg.value.inj hvalue
    show mem _ = mem _
    rw [ofNat_add, Nat.add_mul, Nat.add_assoc]

theorem part_one (hundef : ∀ i, I.undef i = false) (start : ℕ) :
    part I start 1 = .message I.family (start * elemSize I) [.value start] := by
  simp [part, getValueTuple, hundef]

theorem emitBatchLoadOrStore_eq (h : Batches I) :
    emitBatchLoadOrStore I =
      (List.range (msgNum I)).map fun msg => part I (perMsgNum I * msg) (perMsgNum I) := by
  refine List.map_congr_left fun msg hmsg => ?_
  rw [part, h.offset (List.mem_range.mp hmsg)]

/-- The parts of a load: one, batches or elements. -/
theorem emitLoadOrStore_parts (hload : I.isLoad = true) (hundef : ∀ i, I.undef i = false)
    (hn : Supported I.elemNum) (hdirect : Direct I) :
    (I.elemNum = 1 ∧ emitLoadOrStore I = [part I 0 1]) ∨
    (I.elemNum ≠ 1 ∧ I.family ≠ .QWORD ∧ (I.family = .DWORD → I.constant = false) ∧
      Batches I ∧ emitLoadOrStore I =
        (List.range (msgNum I)).map fun msg => part I (perMsgNum I * msg) (perMsgNum I)) ∨
    (I.dwAligned = true ∧ (I.family = .QWORD ∨ I.family = .DWORD) ∧
      emitLoadOrStore I = (List.range I.elemNum).map fun elemID => part I elemID 1) := by
  by_cases hone : I.elemNum = 1
  · refine .inl ⟨hone, ?_⟩
    rw [emitLoadOrStore_scalar hdirect hone, part_one hundef, Nat.zero_mul]
  refine .inr ?_
  by_cases hbatched : Batched I
  · have hbatches := batches hn hbatched.family_ne
    refine .inl ⟨hone, hbatched.family_ne, fun hD => ?_, hbatches, ?_⟩
    · have := hbatched.2
      simp only [hD, true_and, reduceCtorEq, false_and, or_false] at this
      exact this
    · rw [emitLoadOrStore_batched hdirect hbatched, emitBatchLoadOrStore_eq hbatches]
  · have hfamily : I.family = .QWORD ∨ I.family = .DWORD := by
      have hnot := not_and.mp hbatched hone
      rw [hload] at hnot
      cases hf : I.family <;> simp [hf] at hnot ⊢
    have haligned : I.dwAligned = true := by
      refine hdirect.resolve_right fun h => ?_
      exact hfamily.elim h.1 h.2
    refine .inr ⟨haligned, hfamily, ?_⟩
    rw [emitLoadOrStore_elements hdirect hone hbatched, emitElements,
      List.filter_eq_self.mpr (by simp [hundef])]
    exact List.map_congr_left fun elemID _ => (part_one hundef elemID).symm

/-- Whatever is not read byte by byte. -/
theorem loads_of_parts_supported (hw : 2 ≤ w) (hload : I.isLoad = true)
    (hundef : ∀ i, I.undef i = false) (hn : Supported I.elemNum)
    (hdirect : Direct I)
    (haddr : I.dwAligned = true → 4 ∣ addr.toNat)
    (hslow : d.slowByteGather = true → I.dwAligned = false → I.elemNum = 1 → I.family = .WORD →
      2 ∣ addr.toNat) (regs : Regs) :
    ∃ regs', (emitLoadOrStore I).foldlM (exec d I mem addr) regs = some regs' ∧
      ∀ i < I.elemNum, ∀ k < elemSize I,
        regs' (.value i, k) = mem (addr + BitVec.ofNat w (i * elemSize I + k)) := by
  have hsmall : I.dwAligned = false → getFamilySize I.family = 1 ∨ getFamilySize I.family = 2 := by
    intro h
    obtain ⟨h1, h2⟩ := hdirect.resolve_left (by simp [h])
    cases hfamily : I.family <;> simp_all [getFamilySize]
  obtain ⟨hone, hl⟩ | ⟨hone, hQ, hD, hbatches, hl⟩ | ⟨haligned, hfamily, hl⟩ :=
    emitLoadOrStore_parts hload hundef hn hdirect
  · -- a scalar
    rw [hl]
    refine loads_of_parts hw hundef ?_ ?_ regs
    · intro insn h
      obtain rfl := List.mem_singleton.mp h
      refine ⟨0, 1, rfl, ?_⟩
      rw [Nat.zero_mul, BitVec.add_zero]
      refine ⟨Nat.one_pos, haddr, fun _ _ => rfl, hsmall, fun h => ?_, fun _ => by omega, ?_⟩
      · rcases hsmall h with h | h <;> omega
      · intro h hs _
        have hfour := Nat.mod_lt addr.toNat (show 0 < 4 by decide)
        rcases hsmall h with hsize | hsize
        · omega
        · have hWORD : I.family = .WORD := by
            revert hsize
            cases I.family <;> simp [getFamilySize]
          have := hslow hs h hone hWORD
          omega
    · intro i hi
      exact ⟨0, 1, List.mem_singleton_self _, by omega, by omega⟩
  · -- batches
    rw [hl]
    refine loads_of_parts hw hundef ?_ ?_ regs
    · intro insn h
      obtain ⟨msg, hmsg, rfl⟩ := List.mem_map.mp h
      refine ⟨_, _, rfl, ?_⟩
      rw [hbatches.offset (List.mem_range.mp hmsg)]
      refine ⟨hbatches.pos, fun h => dvd_add hw (haddr h) (by omega), fun _ h => ?_, hsmall,
        fun _ => ?_, fun _ => ?_, fun _ _ h => absurd (hbatches.one h) hone⟩
      · rcases h with h | ⟨h, hlegacy⟩
        · exact absurd h hQ
        · simp [isReadConstantLegacy, hD h] at hlegacy
      · rw [Nat.mul_comm]
        exact hbatches.bytes
      · have := hbatches.supported
        rw [Supported] at this
        omega
    · intro i hi
      obtain ⟨hmsg, hle, hlt⟩ := hbatches.msg_of_lt hi
      exact ⟨_, _, List.mem_map.mpr ⟨_, List.mem_range.mpr hmsg, rfl⟩, hle, hlt⟩
  · -- element by element
    rw [hl]
    refine loads_of_parts hw hundef ?_ ?_ regs
    · intro insn h
      obtain ⟨elemID, -, rfl⟩ := List.mem_map.mp h
      have hsize : 4 ∣ elemSize I := by
        rcases hfamily with h | h <;> rw [elemSize, h] <;> decide
      have hnot : I.dwAligned ≠ false := by simp [haligned]
      exact ⟨elemID, 1, rfl, Nat.one_pos,
        fun h => dvd_add hw (haddr h) (Dvd.dvd.mul_left hsize _), fun _ _ => rfl, hsmall,
        fun h => absurd h hnot, fun h => absurd h hnot, fun h => absurd h hnot⟩
    · intro i hi
      exact ⟨i, 1, List.mem_map.mpr ⟨i, List.mem_range.mpr hi, rfl⟩, le_rfl, Nat.lt_succ_self i⟩

/-! ### Byte by byte -/

theorem foldlM_unalignedDQ (hload : I.isLoad = true) (haligned : I.dwAligned = false)
    (hfamily : I.family = .QWORD ∨ I.family = .DWORD) (regs : Regs) :
    (emitLoadOrStore I).foldlM (exec d I mem addr) regs =
      exec d I mem addr (Writes.write (messageWrites d I mem addr .BYTE 0 (byteTuple I)) regs)
        (.BITCAST I.family .BYTE (getValueTuple I 0 I.elemNum) (byteTuple I)) := by
  rw [emitLoadOrStore_unalignedDQ haligned hfamily, emitUnalignedDQLoadStore, if_pos hload]
  simp only [List.foldlM_cons, List.foldlM_nil, bind_pure]
  rfl

/-- The cast puts the bytes into the elements. -/
theorem bitcast_bytes (hundef : ∀ i, I.undef i = false)
    (hbytes : getTypeByteSize I = I.elemNum * elemSize I) (regs : Regs) :
    ∃ ws, bitcast I.family .BYTE (getValueTuple I 0 I.elemNum) (byteTuple I) regs = some ws ∧
      ∀ i < I.elemNum, ∀ k < elemSize I,
        Writes.write ws regs (.value i, k) = regs (.byte (i * elemSize I + k), 0) := by
  have htuple : ∀ j r,
      (getValueTuple I 0 I.elemNum)[j]? = some r ↔ j < I.elemNum ∧ r = .value j := by
    intro j r
    rw [getElem?_getValueTuple, hundef, if_neg (by decide), Nat.zero_add, eq_comm]
  have hbyte : ∀ b < I.elemNum * elemSize I,
      tupleByte 1 (byteTuple I) regs b = regs (.byte b, 0) := by
    intro b hb
    rw [tupleByte, Nat.div_one, Nat.mod_one, getElem?_byteTuple.mpr ⟨by rw [hbytes]; exact hb, rfl⟩]
  have hpos := elemSize_pos I
  refine ⟨_, if_pos ?_, fun i hi k hk => Writes.write_of_mem ?_ fun p hp hpx => ?_⟩
  · rw [length_byteTuple, hbytes, getValueTuple, List.length_map, List.length_range]
    exact (Nat.mul_one _).symm
  · have hlen : (getValueTuple I 0 I.elemNum).length = I.elemNum := by simp [getValueTuple]
    have hlt := byte_lt I hi hk
    have hdiv : (i * elemSize I + k) / elemSize I = i := by
      rw [Nat.mul_comm, Nat.mul_add_div hpos, Nat.div_eq_of_lt hk, Nat.add_zero]
    have hmod : (i * elemSize I + k) % elemSize I = k := by
      rw [Nat.mul_comm, Nat.mul_add_mod, Nat.mod_eq_of_lt hk]
    refine ⟨((.value i, k), regs (.byte (i * elemSize I + k), 0)), ?_, rfl⟩
    refine List.mem_filterMap.mpr ⟨i * elemSize I + k, ?_, ?_⟩
    · rw [hlen]
      exact List.mem_range.mpr hlt
    · show Option.map _ (getValueTuple I 0 I.elemNum)[(i * elemSize I + k) / elemSize I]? = _
      rw [hdiv, (htuple i _).mpr ⟨hi, rfl⟩]
      show some ((Reg.value i, (i * elemSize I + k) % elemSize I), _) = _
      rw [hmod]
      exact congrArg (fun v => some ((Reg.value i, k), v)) (hbyte _ hlt)
  · obtain ⟨b, hb, hp⟩ := List.mem_filterMap.mp hp
    obtain ⟨r, hr, rfl⟩ := Option.map_eq_some_iff.mp hp
    obtain ⟨-, rfl⟩ := (htuple _ _).mp hr
    obtain ⟨hvalue, rfl⟩ := Prod.mk.inj hpx
    obtain rfl := Reg.value.inj hvalue
    have hlen : (getValueTuple I 0 I.elemNum).length = I.elemNum := by simp [getValueTuple]
    rw [hlen] at hb
    show tupleByte 1 (byteTuple I) regs b = _
    rw [hbyte b (List.mem_range.mp hb)]
    exact congrArg (fun b => regs (.byte b, 0)) (Nat.div_add_mod' b _).symm

/-- Three elements are not as many bytes as four. -/
theorem bitcast_three (hthree : I.elemNum = 3) (regs : Regs) :
    bitcast I.family .BYTE (getValueTuple I 0 I.elemNum) (byteTuple I) regs = none := by
  refine if_neg ?_
  rw [length_byteTuple, getValueTuple, List.length_map, List.length_range, getTypeByteSize, hthree]
  show 3 * elemSize I ≠ 4 * elemSize I * 1
  have hpos := elemSize_pos I
  omega

theorem loads_unalignedDQ (hw : 2 ≤ w) (hload : I.isLoad = true) (haligned : I.dwAligned = false)
    (hfamily : I.family = .QWORD ∨ I.family = .DWORD) (hundef : ∀ i, I.undef i = false)
    (hn : Supported I.elemNum) (hthree : I.elemNum ≠ 3) (hle : I.elemNum * elemSize I ≤ 16)
    (regs : Regs) :
    ∃ regs', (emitLoadOrStore I).foldlM (exec d I mem addr) regs = some regs' ∧
      ∀ i < I.elemNum, ∀ k < elemSize I,
        regs' (.value i, k) = mem (addr + BitVec.ofNat w (i * elemSize I + k)) := by
  have hbytes := getTypeByteSize_eq hthree
  have hcount : I.elemNum * elemSize I = 4 ∨ I.elemNum * elemSize I = 8 ∨
      I.elemNum * elemSize I = 16 := by
    rw [elemSize] at hle ⊢
    rcases hfamily with h | h <;> rw [h, getFamilySize] at hle ⊢ <;>
      rcases hn with h | h | h | h | h | h <;> omega
  have hdelivers : Delivers mem (addr + BitVec.ofNat w 0) (byteTuple I) 1
      (messageWrites d I mem addr .BYTE 0 (byteTuple I)) := by
    have hread : Readable d.slowByteGather (isReadConstantLegacy d I) I.dwAligned .BYTE
        (byteTuple I).length (addr + BitVec.ofNat w 0) := by
      rw [length_byteTuple, hbytes, haligned]
      have h1 : getFamilySize .BYTE = 1 := rfl
      exact ⟨by omega, by simp, by simp, fun _ => .inl rfl, fun _ => by rw [h1]; omega,
        fun _ => by omega, fun _ _ h => by omega⟩
    exact delivers_emit hw hread
  set regs1 := Writes.write (messageWrites d I mem addr .BYTE 0 (byteTuple I)) regs with hregs
  obtain ⟨ws, hcast, hws⟩ := bitcast_bytes hundef hbytes regs1
  refine ⟨Writes.write ws regs1, ?_, fun i hi k hk => ?_⟩
  · rw [foldlM_unalignedDQ hload haligned hfamily, ← hregs, exec, hcast]
    rfl
  · have hlt : i * elemSize I + k < getTypeByteSize I := by
      rw [hbytes]
      exact byte_lt I hi hk
    rw [hws i hi k hk]
    refine Writes.write_of_mem ⟨_, hdelivers.all (i * elemSize I + k) _
      (getElem?_byteTuple.mpr ⟨hlt, rfl⟩) 0 Nat.one_pos, rfl⟩ fun p hp hpx => ?_
    obtain ⟨j, b, r, hr, hb, rfl⟩ := hdelivers.only p hp
    obtain ⟨-, rfl⟩ := getElem?_byteTuple.mp hr
    obtain ⟨hj, rfl⟩ := Prod.mk.inj hpx
    obtain rfl := Reg.byte.inj hj
    show mem _ = _
    rw [ofNat_add]
    exact congrArg (fun n => mem (addr + BitVec.ofNat w n)) (by omega)

end

/-! ### What is not delivered -/

/-- A memory of one byte. -/
def oneByte (w a : ℕ) : Mem w := fun x => if x = BitVec.ofNat w a then 1 else 0

theorem oneByte_self (a : ℕ) : oneByte w a (BitVec.ofNat w a) = 1 := if_pos rfl

theorem oneByte_of_ne {a b : ℕ} (hw : 32 ≤ w) (ha : a < 2 ^ 32) (hb : b < 2 ^ 32) (h : b ≠ a) :
    oneByte w a (BitVec.ofNat w b) = 0 := by
  refine if_neg fun heq => h ?_
  have hpow : 2 ^ 32 ≤ 2 ^ w := Nat.pow_le_pow_right (by decide) hw
  have := congrArg BitVec.toNat heq
  rwa [BitVec.toNat_ofNat, BitVec.toNat_ofNat, Nat.mod_eq_of_lt (by omega),
    Nat.mod_eq_of_lt (by omega)] at this

section

variable {d : Device} {I : Access}

/-- With 32 bytes or more, byte 31 is taken from four dwords too far or not at all. -/
theorem emit_byte31 (hw : 32 ≤ w) (hlen : 32 ≤ getTypeByteSize I) {slow legacy : Bool}
    {p : (Reg × ℕ) × BitVec 8}
    (hp : p ∈ emit (oneByte w 33) (BitVec.ofNat w 2) (byteTuple I) slow legacy false .BYTE)
    (hpx : p.1 = (.byte 31, 0)) : p.2 = 0 := by
  have hunaligned : p ∈ if slow || getFamilySize .BYTE = 2 ||
        (getFamilySize .BYTE = 1 && ((byteTuple I).length = 16 || (byteTuple I).length = 8)) then
        emitEffectData (oneByte w 33) (BitVec.ofNat w 2) (byteTuple I) (getFamilySize .BYTE)
      else emitByteLoop (oneByte w 33) (BitVec.ofNat w 2) (byteTuple I) := by
    simp only [emit, Bool.false_and, Bool.false_eq_true, if_false] at hp
    rw [emitUnalignedByteGather.eq_def] at hp
    split at hp
    · next r heq =>
      have := congrArg List.length heq
      rw [length_byteTuple, List.length_singleton] at this
      omega
    · exact hp
  split at hunaligned
  · -- byte 3 of dword 7 needs the ninth dword
    obtain ⟨⟨e, i⟩, he, hp⟩ := List.mem_flatMap.mp hunaligned
    have he := List.mem_zipIdx_iff_getElem?.mp he
    obtain ⟨j, hj, r, hr, k, hk, rfl⟩ := mem_unpack.mp hp
    obtain rfl : k = 0 := by
      have : getFamilySize .BYTE = 1 := rfl
      omega
    rw [List.getElem?_drop] at hr
    obtain ⟨-, rfl⟩ := getElem?_byteTuple.mp hr
    obtain ⟨hbyte, -⟩ := Prod.mk.inj hpx
    have hindex := Reg.byte.inj hbyte
    have hsize : getFamilySize .BYTE = 1 := rfl
    rw [hsize] at hindex hj he ⊢
    obtain ⟨rfl, rfl⟩ : i = 7 ∧ j = 3 := by split at hj <;> omega
    rw [length_byteTuple, Nat.one_mul] at he
    obtain ⟨e', he', hdata⟩ := byte_getEffectByteData (BitVec.ofNat w 2)
      (show 7 < (getTypeByteSize I + 3) / 4 by omega) (readLoop (oneByte w 33)
        ((getTypeByteSize I + 3) / 4 + 1) (align (BitVec.ofNat w 2)) 0
        ((getTypeByteSize I + 3) / 4 + 1)) (show 3 < 4 by decide)
    obtain rfl : e' = e := Option.some.inj (he'.symm.trans he)
    show byte e' 3 = 0
    rw [hdata, ofNat_toNat hw (by decide), if_neg (by decide), List.getD_eq_getElem?_getD,
      getElem?_readLoop_eight _ (by omega) (dvd_align _) (by omega), Option.getD_some,
      align_ofNat hw (by decide), byte_dword _ _ (by decide), ofNat_add, ← BitVec.ofNat_add]
    exact oneByte_of_ne hw (by decide) (by decide) (by decide)
  · -- all turns of the loop write the first four registers
    obtain ⟨i, -, hp⟩ := List.mem_flatMap.mp hunaligned
    obtain ⟨j, hj, r, hr, k, hk, rfl⟩ := mem_unpack.mp hp
    obtain ⟨-, rfl⟩ := getElem?_byteTuple.mp hr
    obtain ⟨hbyte, -⟩ := Prod.mk.inj hpx
    have := Reg.byte.inj hbyte
    split at hj <;> omega

theorem not_loads_of_three (hload : I.isLoad = true) (haligned : I.dwAligned = false)
    (hfamily : I.family = .QWORD ∨ I.family = .DWORD) (hthree : I.elemNum = 3) {alignment : ℕ} :
    ¬ Loads w d I alignment := by
  intro h
  obtain ⟨regs', hrun, -⟩ := h (fun _ => 0) 0 (fun _ => 0) (Nat.dvd_zero _)
  rw [foldlM_unalignedDQ hload haligned hfamily, exec, bitcast_three hthree] at hrun
  cases hrun

theorem not_loads_of_many (hw : 32 ≤ w) (hload : I.isLoad = true) (haligned : I.dwAligned = false)
    (hfamily : I.family = .QWORD ∨ I.family = .DWORD) (hundef : ∀ i, I.undef i = false)
    (hn : Supported I.elemNum) (hthree : I.elemNum ≠ 3) (hmany : 16 < I.elemNum * elemSize I)
    {alignment : ℕ} (halignment : alignment ∣ 2) : ¬ Loads w d I alignment := by
  intro h
  have hbytes := getTypeByteSize_eq hthree
  have hlen : 32 ≤ I.elemNum * elemSize I := by
    rw [elemSize] at hmany ⊢
    rcases hfamily with h | h <;> rw [h, getFamilySize] at hmany ⊢ <;>
      rcases hn with h | h | h | h | h | h <;> omega
  obtain ⟨regs', hrun, hregs⟩ := h (oneByte w 33) (BitVec.ofNat w 2) (fun _ => 0)
    (by rw [ofNat_toNat hw (by decide)]; exact halignment)
  obtain ⟨ws, hcast, hws⟩ := bitcast_bytes hundef hbytes
    (Writes.write (messageWrites d I (oneByte w 33) (BitVec.ofNat w 2) .BYTE 0 (byteTuple I))
      fun _ => 0)
  rw [foldlM_unalignedDQ hload haligned hfamily, exec, hcast] at hrun
  obtain rfl := Option.some.inj hrun
  have hpos := elemSize_pos I
  have hi : 31 / elemSize I < I.elemNum := by
    rw [Nat.div_lt_iff_lt_mul hpos]
    omega
  have hzero : Writes.write
      (messageWrites d I (oneByte w 33) (BitVec.ofNat w 2) .BYTE 0 (byteTuple I))
      (fun _ => 0) (.byte 31, 0) = 0 := by
    refine Writes.write_of_forall rfl fun p hp hpx => ?_
    rw [messageWrites, BitVec.add_zero, haligned] at hp
    exact emit_byte31 hw (by omega) hp hpx
  have h31 := (hws _ hi _ (Nat.mod_lt _ hpos)).symm.trans (hregs _ hi _ (Nat.mod_lt 31 hpos))
  rw [Nat.div_add_mod', hzero, ← BitVec.ofNat_add, oneByte_self] at h31
  exact absurd h31 (by decide)

/-- A word that goes over the end of its dword. -/
theorem not_loads_of_slow (hw : 32 ≤ w) (hslow : d.slowByteGather = true)
    (haligned : I.dwAligned = false) (hn : I.elemNum = 1) (hfamily : I.family = .WORD) :
    ¬ Loads w d I 1 := by
  intro h
  obtain ⟨regs', hrun, hregs⟩ := h (oneByte w 4) (BitVec.ofNat w 3) (fun _ => 0) (Nat.one_dvd _)
  have hl : emitLoadOrStore I = [.message .WORD 0 [.value 0]] := by
    rw [emitLoadOrStore, if_neg (by simp [hfamily]), if_pos hn, hfamily]
  rw [hl] at hrun
  obtain rfl := Option.some.inj hrun
  have hsize : elemSize I = 2 := by
    rw [elemSize, hfamily, getFamilySize]
  have hone := hregs 0 (by omega) 1 (by omega)
  have hemit : messageWrites d I (oneByte w 4) (BitVec.ofNat w 3) .WORD 0 [.value 0] =
      readByteAsDWord (oneByte w 4) (BitVec.ofNat w 3) (.value 0) 2 := by
    rw [messageWrites, BitVec.add_zero, haligned, hslow]
    rfl
  rw [hemit, readByteAsDWord, Nat.zero_mul, ← BitVec.ofNat_add, oneByte_self,
    Writes.write_of_forall rfl fun p hp hpx => ?_] at hone
  · exact absurd hone (by decide)
  · obtain ⟨k, hk, rfl⟩ := mem_mov.mp hp
    obtain ⟨-, rfl⟩ := Prod.mk.inj hpx
    show byte _ _ = 0
    rw [byte_shifted, ofNat_toNat hw (by decide)]
    exact Bytes.byte_eq_zero _ (by decide)

end

/-- **Loads deliver the bytes at their addresses**, but for unaligned dwords and qwords of more
than 16 bytes, those of three elements, and single words on devices with slow byte gather. -/
theorem loads_iff (hw : 32 ≤ w) (d : Device) (family : Family) {n : ℕ} (hn : Supported n) (e : ℕ)
    (constant : Bool) :
    Loads w d (loadAccess family n (2 ^ e) constant) (2 ^ e) ↔
      (¬ 4 ∣ 2 ^ e → family = .QWORD ∨ family = .DWORD →
        n ≠ 3 ∧ n * getFamilySize family ≤ 16) ∧
      (d.slowByteGather = true → n = 1 → family = .WORD → 2 ∣ 2 ^ e) := by
  have haligned : (loadAccess family n (2 ^ e) constant).dwAligned = true ↔ 4 ∣ 2 ^ e := by
    show decide (2 ^ e % 4 = 0) = true ↔ _
    rw [decide_eq_true_iff, Nat.dvd_iff_mod_eq_zero]
  have hunaligned : ¬ 4 ∣ 2 ^ e → (loadAccess family n (2 ^ e) constant).dwAligned = false :=
    fun h => by rwa [← Bool.not_eq_true, haligned]
  constructor
  · refine fun h => ⟨fun hodd hfamily => ?_, fun hslow hone hfamily => ?_⟩
    · have hthree : n ≠ 3 := fun hthree =>
        not_loads_of_three rfl (hunaligned hodd) hfamily hthree h
      refine ⟨hthree, not_lt.mp fun hmany => ?_⟩
      have htwo : 2 ^ e ∣ 2 := by
        have he : e < 2 := by
          by_contra he
          exact hodd (pow_dvd_pow 2 (not_lt.mp he))
        exact pow_dvd_pow 2 (show e ≤ 1 by omega)
      exact not_loads_of_many hw rfl (hunaligned hodd) hfamily (fun _ => rfl) hn hthree hmany htwo h
    · cases e with
      | zero =>
        exact absurd h (not_loads_of_slow hw hslow (hunaligned (by decide)) hone hfamily)
      | succ e => exact dvd_pow_self 2 (Nat.succ_ne_zero e)
  · rintro ⟨hDQ, hslow⟩ mem addr regs hdvd
    have hfour : (loadAccess family n (2 ^ e) constant).dwAligned = true → 4 ∣ addr.toNat :=
      fun h => (haligned.mp h).trans hdvd
    by_cases hparts : 4 ∣ 2 ^ e ∨ (family ≠ .QWORD ∧ family ≠ .DWORD)
    · exact loads_of_parts_supported (by omega) rfl (fun _ => rfl) hn
        (hparts.imp_left haligned.mpr) hfour
        (fun hs _ hone hfamily => (hslow hs hone hfamily).trans hdvd) regs
    · rw [not_or, not_and_or, not_not, not_not] at hparts
      obtain ⟨hthree, hle⟩ := hDQ hparts.1 hparts.2
      exact loads_unalignedDQ (by omega) rfl (hunaligned hparts.1) hparts.2 (fun _ => rfl) hn hthree
        hle regs

/-- Two floats at any address. -/
theorem loads_float2 : Loads 64 ⟨false, false⟩ (loadAccess .DWORD 2 1 false) 1 :=
  (loads_iff (by decide) ⟨false, false⟩ .DWORD (by decide) 0 false).mpr ⟨by decide, by decide⟩

/-- Eight floats at an address that is not aligned. -/
theorem loads_float8 : ¬ Loads 32 ⟨false, false⟩ (loadAccess .DWORD 8 1 false) 1 :=
  not_loads_of_many le_rfl rfl rfl (.inr rfl) (fun _ => rfl) (by decide) (by decide) (by decide)
    (by decide)

end LoadMessages

end Backend
