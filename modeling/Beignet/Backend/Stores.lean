/-
Whole stores: the messages of `MemoryInstHelper` as the store pattern selects them, all lanes.

* `stored_of_writes` — writes in the places of the elements, of the values that are defined;
* `stored_of_sound` — messages that have a lane to take their elements from;
* `stores_unalignedDQ` — dwords and qwords byte by byte;
* `not_stores_of_unaligned`, `not_stores_of_lost` — bytes before the address, lost elements;
* **`stores_iff`** — which stores write the stored value and nothing else.
-/
import Beignet.Backend.StoreMessages

namespace Backend

namespace StoreMessages

open Aligned
open Bytes (byte)
open Llvm.MemoryInst

variable {w : ℕ}

/-! ### Whole stores -/

/-- The memory and the lanes. -/
structure State (w : ℕ) where
  mem : Mem w
  lanes : Lanes w

def exec (active : List ℕ) (U : Scalars) (I : Access) (s : State w) : Insn → Option (State w)
  | .message type offset tuple =>
    some { s with
      mem := Writes.write (active.flatMap (emit active U s.lanes I.dwAligned type offset tuple))
        s.mem }
  | .BITCAST dstType srcType dst src =>
    if dst.length * getFamilySize dstType = src.length * getFamilySize srcType then
      some { s with
        lanes.regs := fun lane =>
          if lane ∈ active then
            Writes.write (bitcastWrites dstType srcType dst src (s.lanes.regs lane))
              (s.lanes.regs lane)
          else s.lanes.regs lane }
    else none

/-- A store of `elemNum` elements at a recorded alignment. -/
def storeAccess (family : Family) (elemNum alignment : ℕ) (constant : Bool) (undef : ℕ → Bool) :
    Access where
  isLoad := false
  family := family
  elemNum := elemNum
  dwAligned := alignment % 4 = 0
  constant := constant
  undef := undef

/-- What registers can hold. -/
structure Possible (active : List ℕ) (U : Scalars) (lanes : Lanes w) (alignment : ℕ) : Prop where
  addr : ∀ lane ∈ active, alignment ∣ (lanes.addr lane).toNat
  null : ∀ lane k, lanes.regs lane (.null, k) = 0
  addrUniform : U.addr = true → ∀ lane lane', lanes.addr lane = lanes.addr lane'
  valueUniform : ∀ r, U.value r = true → ∀ lane lane' k,
    lanes.regs lane (r, k) = lanes.regs lane' (r, k)

/-- A byte belongs to the store of a lane: byte `k` of element `i`. -/
def Covers (I : Access) (lanes : Lanes w) (lane : ℕ) (x : BitVec w) (i k : ℕ) : Prop :=
  i < I.elemNum ∧ k < elemSize I ∧ x = lanes.addr lane + BitVec.ofNat w (i * elemSize I + k)

/-- Bytes that no active lane stores to are kept, and the others are what is stored, where all
active lanes that store to them store the same. -/
structure Stored (active : List ℕ) (I : Access) (lanes : Lanes w) (mem mem' : Mem w) : Prop where
  frame : ∀ x, (∀ lane ∈ active, ∀ i k, ¬ Covers I lanes lane x i k) → mem' x = mem x
  value : ∀ x v, (∃ lane ∈ active, ∃ i k, Covers I lanes lane x i k) →
    (∀ lane ∈ active, ∀ i k, Covers I lanes lane x i k →
      I.undef i = false ∧ lanes.regs lane (.value i, k) = v) → mem' x = v

def Stores (w : ℕ) (active : List ℕ) (U : Scalars) (I : Access) (alignment : ℕ) : Prop :=
  ∀ (mem : Mem w) (lanes : Lanes w), Possible active U lanes alignment →
    ∃ s', (emitLoadOrStore I).foldlM (exec active U I) ⟨mem, lanes⟩ = some s' ∧
      Stored active I lanes mem s'.mem

/-! ### What is stored -/

section

variable {active : List ℕ} {U : Scalars} {I : Access} {lanes : Lanes w} {mem : Mem w}

/-- Writes in the places of the elements, of the values that are defined. -/
theorem stored_of_writes {ws : MemWrites w}
    (honly : ∀ p ∈ ws, ∃ lane ∈ active, ∃ i k, Covers I lanes lane p.1 i k ∧
      (I.undef i = false → p.2 = lanes.regs lane (.value i, k)))
    (hall : ∀ lane ∈ active, ∀ i < I.elemNum, I.undef i = false → ∀ k < elemSize I,
      ∃ p ∈ ws, p.1 = lanes.addr lane + BitVec.ofNat w (i * elemSize I + k)) :
    Stored active I lanes mem (Writes.write ws mem) where
  frame := by
    intro x hx
    refine Writes.write_of_notMem fun p hp hpx => ?_
    obtain ⟨lane, hlane, i, k, hcovers, -⟩ := honly p hp
    exact hx lane hlane i k (hpx ▸ hcovers)
  value := by
    rintro x v ⟨lane, hlane, i, k, hcovers⟩ hagree
    obtain ⟨hi, hk, hx⟩ := hcovers
    obtain ⟨hdefined, -⟩ := hagree lane hlane i k ⟨hi, hk, hx⟩
    refine Writes.write_of_mem ?_ fun p hp hpx => ?_
    · obtain ⟨p, hp, hpx⟩ := hall lane hlane i hi hdefined k hk
      exact ⟨p, hp, hpx.trans hx.symm⟩
    · obtain ⟨lane', hlane', i', k', hcovers', hvalue⟩ := honly p hp
      obtain ⟨hdefined', hv⟩ := hagree lane' hlane' i' k' (hpx ▸ hcovers')
      rw [hvalue hdefined', hv]

theorem foldlM_messages {l : List Insn} (s : State w)
    (hl : ∀ insn ∈ l, ∃ type offset tuple, insn = .message type offset tuple) :
    ∃ ws, l.foldlM (exec active U I) s = some { s with mem := Writes.write ws s.mem } ∧
      ∀ p, p ∈ ws ↔ ∃ type offset tuple, .message type offset tuple ∈ l ∧
        ∃ lane ∈ active, p ∈ emit active U s.lanes I.dwAligned type offset tuple lane := by
  induction l generalizing s with
  | nil => exact ⟨[], rfl, by simp⟩
  | cons insn l ih =>
    obtain ⟨type, offset, tuple, rfl⟩ := hl insn List.mem_cons_self
    set first := active.flatMap (emit active U s.lanes I.dwAligned type offset tuple) with hfirst
    obtain ⟨ws, hrun, hmem⟩ := ih { s with mem := Writes.write first s.mem }
      fun insn h => hl insn (List.mem_cons_of_mem _ h)
    refine ⟨first ++ ws, ?_, fun p => ?_⟩
    · rw [List.foldlM_cons, Writes.write_append]
      exact hrun
    · rw [List.mem_append, hmem, hfirst, List.mem_flatMap]
      constructor
      · rintro (hp | ⟨type', offset', tuple', hin, hp⟩)
        · exact ⟨type, offset, tuple, List.mem_cons_self, hp⟩
        · exact ⟨type', offset', tuple', List.mem_cons_of_mem _ hin, hp⟩
      · rintro ⟨type', offset', tuple', hin, hp⟩
        rcases List.mem_cons.mp hin with heq | hin
        · obtain ⟨rfl, rfl, rfl⟩ := Insn.message.inj heq
          exact .inl hp
        · exact .inr ⟨type', offset', tuple', hin, hp⟩

/-- The elements of a message are elements of the store, from `start` on. -/
structure Fits (I : Access) (start : ℕ) (tuple : List Reg) : Prop where
  le : start + tuple.length ≤ I.elemNum
  value : ∀ j < tuple.length, I.undef (start + j) = false → tuple[j]? = some (.value (start + j))

/-- A message that writes its elements in their places, and has a lane to take them from. -/
structure Sound (active : List ℕ) (U : Scalars) (I : Access) (lanes : Lanes w) (start : ℕ)
    (tuple : List Reg) : Prop where
  fits : Fits I start tuple
  sends : ∀ lane ∈ active,
    Sends (lanes.addr lane + BitVec.ofNat w (start * elemSize I)) (tuple.length * elemSize I)
      (content active U lanes I.family tuple lane)
      (emit active U lanes I.dwAligned I.family (start * elemSize I) tuple lane)
  source : Packed I.family tuple → isUniform U tuple = true →
    0 ∈ active ∨ 8 ∈ active ∨ ∀ j < tuple.length, I.undef (start + j) = true

/-- A byte of an element comes from a lane at the same address. -/
theorem content_value {alignment start : ℕ} {tuple : List Reg}
    (hpossible : Possible active U lanes alignment) (h : Sound active U I lanes start tuple)
    {lane b : ℕ} (hlane : lane ∈ active) (hb : b < tuple.length * elemSize I)
    (hdefined : I.undef (start + b / elemSize I) = false) :
    ∃ l ∈ active, lanes.addr l = lanes.addr lane ∧
      content active U lanes I.family tuple lane b =
        lanes.regs l (.value (start + b / elemSize I), b % elemSize I) := by
  have hindex : b / elemSize I < tuple.length := by
    rw [Nat.div_lt_iff_lt_mul (elemSize_pos I)]
    exact hb
  have hbyte : ∀ l, tupleByte (getFamilySize I.family) tuple (lanes.regs l) b =
      lanes.regs l (.value (start + b / elemSize I), b % elemSize I) := by
    intro l
    rw [tupleByte, ← elemSize, h.fits.value _ hindex hdefined]
  by_cases hpacked : Packed I.family tuple
  · rw [content, if_pos hpacked, tmpLane]
    by_cases huniform : isUniform U tuple = true
    · rw [if_pos huniform]
      have haddr : ∀ l, lanes.addr l = lanes.addr lane := by
        simp only [isUniform, Bool.and_eq_true] at huniform
        exact fun l => hpossible.addrUniform huniform.1 l lane
      by_cases h8 : 8 ∈ active
      · rw [if_pos h8]
        exact ⟨8, h8, haddr 8, hbyte 8⟩
      · rw [if_neg h8]
        obtain h0 | h8' | hundef := h.source hpacked huniform
        · rw [if_pos h0]
          exact ⟨0, h0, haddr 0, hbyte 0⟩
        · exact absurd h8' h8
        · rw [hundef _ hindex] at hdefined
          cases hdefined
    · rw [if_neg huniform]
      exact ⟨lane, hlane, rfl, hbyte lane⟩
  · rw [content, if_neg hpacked]
    exact ⟨lane, hlane, rfl, hbyte lane⟩

/-- Sound messages for all elements that are defined. -/
theorem stored_of_sound {alignment : ℕ} (hpossible : Possible active U lanes alignment)
    {l : List Insn}
    (hsound : ∀ insn ∈ l, ∃ start tuple, insn = .message I.family (start * elemSize I) tuple ∧
      Sound active U I lanes start tuple)
    (hcover : ∀ i < I.elemNum, I.undef i = false → ∃ start tuple,
      .message I.family (start * elemSize I) tuple ∈ l ∧ Sound active U I lanes start tuple ∧
        start ≤ i ∧ i < start + tuple.length) :
    ∃ s', l.foldlM (exec active U I) ⟨mem, lanes⟩ = some s' ∧ Stored active I lanes mem s'.mem := by
  obtain ⟨ws, hrun, hmem⟩ := @foldlM_messages w active U I l ⟨mem, lanes⟩ fun insn h => by
    obtain ⟨start, tuple, rfl, -⟩ := hsound insn h
    exact ⟨_, _, _, rfl⟩
  refine ⟨_, hrun, stored_of_writes (fun p hp => ?_) fun lane hlane i hi hdefined k hk => ?_⟩
  · obtain ⟨type, offset, tuple, hin, lane, hlane, hp⟩ := (hmem p).mp hp
    obtain ⟨start, tuple', heq, h⟩ := hsound _ hin
    obtain ⟨rfl, rfl, rfl⟩ := Insn.message.inj heq
    obtain ⟨b, hb, rfl⟩ := (h.sends lane hlane p).mp hp
    have hindex : b / elemSize I < tuple.length := by
      rw [Nat.div_lt_iff_lt_mul (elemSize_pos I)]
      exact hb
    have hle := h.fits.le
    have hcovers : ∀ l, lanes.addr l = lanes.addr lane → Covers I lanes l
        (lanes.addr lane + BitVec.ofNat w (start * elemSize I) + BitVec.ofNat w b)
        (start + b / elemSize I) (b % elemSize I) := by
      intro l haddr
      refine ⟨by omega, Nat.mod_lt _ (elemSize_pos I), ?_⟩
      rw [haddr, ofNat_add, Nat.add_mul, Nat.add_assoc, Nat.div_add_mod']
    cases hdefined : I.undef (start + b / elemSize I) with
    | false =>
      obtain ⟨l, hl, haddr, hvalue⟩ := content_value hpossible h hlane hb hdefined
      exact ⟨l, hl, _, _, hcovers l haddr, fun _ => hvalue⟩
    | true =>
      refine ⟨lane, hlane, _, _, hcovers lane rfl, fun hfalse => ?_⟩
      rw [hdefined] at hfalse
      cases hfalse
  · obtain ⟨start, tuple, hin, h, hle, hlt⟩ := hcover i hi hdefined
    have hb : (i - start) * elemSize I + k < tuple.length * elemSize I := by
      calc (i - start) * elemSize I + k < (i - start) * elemSize I + elemSize I :=
            Nat.add_lt_add_left hk _
        _ = (i - start + 1) * elemSize I := (Nat.succ_mul _ _).symm
        _ ≤ tuple.length * elemSize I := Nat.mul_le_mul_right _ (by omega)
    have hsent := (h.sends lane hlane _).mpr ⟨_, hb, rfl⟩
    refine ⟨_, (hmem _).mpr ⟨_, _, _, hin, lane, hlane, hsent⟩, ?_⟩
    show _ + _ + _ = _
    rw [ofNat_add, ← Nat.add_assoc, ← Nat.add_mul, Nat.add_sub_cancel' hle]

end

/-! ### Batches and elements -/

/-- The undefined elements of a message are where those of the first are. -/
def KeepsValues (I : Access) : Prop :=
  ∀ msg < msgNum I, ∀ j < perMsgNum I, I.undef j = true → I.undef (perMsgNum I * msg + j) = true

/-- The lane of each scalar temporary is active, or nothing in it is defined. -/
def Temporaries (active : List ℕ) (U : Scalars) (I : Access) : Prop :=
  ∀ msg < msgNum I, isUniform U (getValueTuple I (perMsgNum I * msg) (perMsgNum I)) = true →
    0 ∈ active ∨ 8 ∈ active ∨ ∀ j < perMsgNum I, I.undef (perMsgNum I * msg + j) = true

section

variable {active : List ℕ} {U : Scalars} {I : Access} {lanes : Lanes w} {mem : Mem w}

/-- A message at dwords, or of one byte or word. -/
theorem sends_of_direct {start : ℕ} {tuple : List Reg} {lane : ℕ} (hdirect : Direct I)
    (hpos : 0 < tuple.length)
    (haddr : I.family = .QWORD ∨ I.family = .DWORD ∨ Packed I.family tuple →
      4 ∣ (lanes.addr lane + BitVec.ofNat w (start * elemSize I)).toNat)
    (hQ : I.family = .QWORD → tuple.length = 1)
    (hpacked : Packed I.family tuple → 4 ∣ getFamilySize I.family * tuple.length) :
    Sends (lanes.addr lane + BitVec.ofNat w (start * elemSize I)) (tuple.length * elemSize I)
      (content active U lanes I.family tuple lane)
      (emit active U lanes I.dwAligned I.family (start * elemSize I) tuple lane) := by
  by_cases h : Packed I.family tuple
  · have hsends := @emit_packed w active U lanes I.dwAligned I.family (start * elemSize I) tuple
      lane h (hpacked h)
    rwa [align_of_dvd (haddr (.inr (.inr h)))] at hsends
  · refine emit_whole h hpos (fun hf => haddr (by tauto)) (fun hf => ⟨?_, hQ hf⟩) fun hf => ?_
    · exact hdirect.resolve_right fun hne => hne.1 hf
    · exact hdirect.resolve_right fun hne => hne.2 hf

theorem fits_element {i : ℕ} (hi : i < I.elemNum) : Fits I i [.value i] where
  le := hi
  value := by
    intro j hj _
    obtain rfl : j = 0 := by simpa using hj
    rfl

theorem fits_batch (hbatches : Batches I) (hkeeps : KeepsValues I) {msg : ℕ}
    (hmsg : msg < msgNum I) :
    Fits I (perMsgNum I * msg) (getValueTuple I (perMsgNum I * msg) (perMsgNum I)) where
  le := by
    rw [length_getValueTuple, ← hbatches.all]
    calc perMsgNum I * msg + perMsgNum I = perMsgNum I * (msg + 1) := rfl
      _ ≤ perMsgNum I * msgNum I := Nat.mul_le_mul_left _ hmsg
  value := by
    intro j hj hdefined
    rw [length_getValueTuple] at hj
    have hfirst : I.undef j = false := by
      rw [← Bool.not_eq_true]
      intro hundef
      rw [hkeeps msg hmsg j hj hundef] at hdefined
      cases hdefined
    rw [getElem?_getValueTuple, hfirst]
    exact ⟨hj, rfl⟩

theorem not_packed_singleton {type : Family} {r : Reg} : ¬ Packed type [r] := by
  intro h
  exact absurd h.1 (by simp)

/-- Packed batches are whole dwords. -/
theorem dvd_batch (hstore : I.isLoad = false) (hbatched : Batched I) (hbatches : Batches I)
    (hD : I.family ≠ .DWORD) : 4 ∣ getFamilySize I.family * perMsgNum I := by
  rcases hbatches.full with hone | hfull
  · have hper : perMsgNum I = I.elemNum := by rw [perMsgNum, hone, Nat.div_one]
    rw [hper]
    rcases hbatched.2 with h | ⟨hf, h⟩ | ⟨hf, h⟩
    · exact absurd h.1 hD
    · rw [hf, getFamilySize]
      simp only [hstore, Bool.false_eq_true, false_or] at h
      omega
    · rw [hf, getFamilySize]
      simp only [hstore, Bool.false_eq_true, false_or] at h
      omega
  · rw [Nat.mul_comm, ← elemSize, hfull]
    decide

theorem stores_of_direct (hw : 2 ≤ w) {alignment : ℕ} (hstore : I.isLoad = false)
    (hn : Supported I.elemNum) (hdirect : Direct I)
    (hpossible : Possible active U lanes alignment)
    (haddr : I.dwAligned = true → ∀ lane ∈ active, 4 ∣ (lanes.addr lane).toNat)
    (hbatch : Batched I → KeepsValues I ∧
      (I.family ≠ .DWORD → I.dwAligned = true ∧ Temporaries active U I)) :
    ∃ s', (emitLoadOrStore I).foldlM (exec active U I) ⟨mem, lanes⟩ = some s' ∧
      Stored active I lanes mem s'.mem := by
  have hfull : I.family = .QWORD ∨ I.family = .DWORD → I.dwAligned = true := by
    intro hf
    exact hdirect.resolve_right fun hne => hf.elim hne.1 hne.2
  have helement : ∀ i < I.elemNum, Sound active U I lanes i [.value i] := by
    intro i hi
    refine ⟨fits_element hi, fun lane hlane => sends_of_direct hdirect Nat.one_pos (fun hf => ?_)
      (fun _ => rfl) fun h => absurd h not_packed_singleton,
      fun h => absurd h not_packed_singleton⟩
    have hf : I.family = .QWORD ∨ I.family = .DWORD := by
      rcases hf with hf | hf | h
      · exact .inl hf
      · exact .inr hf
      · exact absurd h not_packed_singleton
    refine dvd_add hw (haddr (hfull hf) lane hlane) (Dvd.dvd.mul_left ?_ _)
    rcases hf with hf | hf <;> rw [elemSize, hf] <;> decide
  by_cases hone : I.elemNum = 1
  · -- a scalar
    have hscalar : emitLoadOrStore I = [.message I.family (0 * elemSize I) [.value 0]] := by
      rw [emitLoadOrStore_scalar hdirect hone, Nat.zero_mul]
    rw [hscalar]
    have hsound := helement 0 (by omega)
    refine stored_of_sound hpossible (fun insn h => ⟨0, _, List.mem_singleton.mp h, hsound⟩)
      fun i hi _ => ⟨0, _, List.mem_singleton_self _, hsound, by omega, ?_⟩
    rw [List.length_singleton]
    omega
  by_cases hbatched : Batched I
  · -- batches
    have hbatches := batches hn hbatched.family_ne
    obtain ⟨hkeeps, hpack⟩ := hbatch hbatched
    have hsound : ∀ msg < msgNum I, Sound active U I lanes (perMsgNum I * msg)
        (getValueTuple I (perMsgNum I * msg) (perMsgNum I)) := by
      intro msg hmsg
      refine ⟨fits_batch hbatches hkeeps hmsg, fun lane hlane =>
        sends_of_direct hdirect ?_ (fun hf => ?_) (fun h => absurd h hbatched.family_ne)
          fun h => ?_, fun h hu => ?_⟩
      · rw [length_getValueTuple]
        exact hbatches.pos
      · have haligned : I.dwAligned = true := by
          rcases hf with hf | hf | h
          · exact hfull (.inl hf)
          · exact hfull (.inr hf)
          · exact (hpack h.2.1).1
        rw [hbatches.offset hmsg]
        exact dvd_add hw (haddr haligned lane hlane) (by omega)
      · rw [length_getValueTuple]
        exact dvd_batch hstore hbatched hbatches h.2.1
      · rw [length_getValueTuple]
        exact (hpack h.2.1).2 msg hmsg hu
    have hbatchMsg : emitLoadOrStore I = (List.range (msgNum I)).map fun msg =>
        .message I.family (perMsgNum I * msg * elemSize I)
          (getValueTuple I (perMsgNum I * msg) (perMsgNum I)) := by
      rw [emitLoadOrStore_batched hdirect hbatched]
      refine List.map_congr_left fun msg hmsg => ?_
      rw [hbatches.offset (List.mem_range.mp hmsg)]
    rw [hbatchMsg]
    refine stored_of_sound hpossible (fun insn h => ?_) fun i hi _ => ?_
    · obtain ⟨msg, hmsg, rfl⟩ := List.mem_map.mp h
      exact ⟨_, _, rfl, hsound msg (List.mem_range.mp hmsg)⟩
    · obtain ⟨hmsg, hle, hlt⟩ := hbatches.msg_of_lt hi
      refine ⟨_, _, List.mem_map.mpr ⟨_, List.mem_range.mpr hmsg, rfl⟩, hsound _ hmsg, hle, ?_⟩
      rw [length_getValueTuple]
      exact hlt
  · -- element by element, those that are defined
    rw [emitLoadOrStore_elements hdirect hone hbatched, emitElements]
    refine stored_of_sound hpossible (fun insn h => ?_) fun i hi hdefined => ?_
    · obtain ⟨i, hi, rfl⟩ := List.mem_map.mp h
      have hi := List.mem_range.mp (List.mem_filter.mp hi).1
      exact ⟨i, _, rfl, helement i hi⟩
    · refine ⟨i, _, List.mem_map.mpr ⟨i, List.mem_filter.mpr ⟨List.mem_range.mpr hi, ?_⟩, rfl⟩,
        helement i hi, le_rfl, Nat.lt_succ_self i⟩
      rw [hdefined]
      rfl

end

/-! ### Stores byte by byte -/

section

variable {active : List ℕ} {U : Scalars} {I : Access} {lanes : Lanes w} {mem : Mem w}

/-- The registers of the lanes after the elements are cast to bytes. -/
def castLanes (active : List ℕ) (I : Access) (lanes : Lanes w) : Lanes w where
  addr := lanes.addr
  junk := lanes.junk
  regs := fun lane =>
    if lane ∈ active then
      Writes.write (bitcastWrites .BYTE I.family (byteTuple I) (getValueTuple I 0 I.elemNum)
        (lanes.regs lane)) (lanes.regs lane)
    else lanes.regs lane

theorem exec_bitcast (s : State w) :
    exec active U I s (.BITCAST .BYTE I.family (byteTuple I) (getValueTuple I 0 I.elemNum)) =
      if I.elemNum = 3 then none else some { s with lanes := castLanes active I s.lanes } := by
  have hcond : (byteTuple I).length * getFamilySize .BYTE =
      (getValueTuple I 0 I.elemNum).length * getFamilySize I.family ↔ I.elemNum ≠ 3 := by
    rw [length_byteTuple, length_getValueTuple, getFamilySize, Nat.mul_one]
    constructor
    · intro h hthree
      rw [getTypeByteSize, hthree] at h
      have h : 4 * elemSize I = 3 * elemSize I := h
      have hpos := elemSize_pos I
      omega
    · exact getTypeByteSize_eq
  by_cases hthree : I.elemNum = 3
  · rw [if_pos hthree]
    exact if_neg fun h => hcond.mp h hthree
  · rw [if_neg hthree]
    exact if_pos (hcond.mpr hthree)

theorem castLanes_byte {lane b : ℕ} (hlane : lane ∈ active) (hb : b < getTypeByteSize I) :
    (castLanes active I lanes).regs lane (.byte b, 0) =
      tupleByte (elemSize I) (getValueTuple I 0 I.elemNum) (lanes.regs lane) b := by
  have hmem : ∀ p, p ∈ bitcastWrites .BYTE I.family (byteTuple I) (getValueTuple I 0 I.elemNum)
      (lanes.regs lane) ↔ ∃ b < getTypeByteSize I, p = ((.byte b, 0),
        tupleByte (elemSize I) (getValueTuple I 0 I.elemNum) (lanes.regs lane) b) := by
    intro p
    simp only [bitcastWrites, getFamilySize, Nat.mul_one, Nat.div_one, Nat.mod_one,
      length_byteTuple, List.mem_filterMap, List.mem_range, Option.map_eq_some_iff,
      getElem?_byteTuple, elemSize]
    constructor
    · rintro ⟨b, hb, r, ⟨-, rfl⟩, rfl⟩
      exact ⟨b, hb, rfl⟩
    · rintro ⟨b, hb, rfl⟩
      exact ⟨b, hb, _, ⟨hb, rfl⟩, rfl⟩
  have hregs : (castLanes active I lanes).regs lane = Writes.write (bitcastWrites .BYTE I.family
      (byteTuple I) (getValueTuple I 0 I.elemNum) (lanes.regs lane)) (lanes.regs lane) :=
    if_pos hlane
  rw [hregs]
  refine Writes.write_of_mem ⟨_, (hmem _).mpr ⟨b, hb, rfl⟩, rfl⟩ fun p hp hpx => ?_
  obtain ⟨b', -, rfl⟩ := (hmem p).mp hp
  obtain rfl := Reg.byte.inj (Prod.mk.inj hpx).1
  rfl

theorem stores_unalignedDQ (hstore : I.isLoad = false) (haligned : I.dwAligned = false)
    (hfamily : I.family = .QWORD ∨ I.family = .DWORD) (hthree : I.elemNum ≠ 3) :
    ∃ s', (emitLoadOrStore I).foldlM (exec active U I) ⟨mem, lanes⟩ = some s' ∧
      Stored active I lanes mem s'.mem := by
  have hbytes := getTypeByteSize_eq hthree
  have hl : emitLoadOrStore I =
      .BITCAST .BYTE I.family (byteTuple I) (getValueTuple I 0 I.elemNum) ::
        (List.range (getTypeByteSize I)).map fun b => .message .BYTE b [.byte b] := by
    rw [emitLoadOrStore_unalignedDQ haligned hfamily, emitUnalignedDQLoadStore, hstore]
    rfl
  obtain ⟨ws, hrun, hmem⟩ := @foldlM_messages w active U I
    ((List.range (getTypeByteSize I)).map fun b => .message .BYTE b [.byte b])
    ⟨mem, castLanes active I lanes⟩ fun insn h => by
      obtain ⟨b, -, rfl⟩ := List.mem_map.mp h
      exact ⟨_, _, _, rfl⟩
  have hwrites : ∀ p, p ∈ ws ↔ ∃ b < getTypeByteSize I, ∃ lane ∈ active,
      p = (lanes.addr lane + BitVec.ofNat w b,
        tupleByte (elemSize I) (getValueTuple I 0 I.elemNum) (lanes.regs lane) b) := by
    have hsends : ∀ b < getTypeByteSize I, ∀ lane ∈ active, ∀ p,
        p ∈ emit active U (castLanes active I lanes) I.dwAligned .BYTE b [.byte b] lane ↔
          p = (lanes.addr lane + BitVec.ofNat w b,
            tupleByte (elemSize I) (getValueTuple I 0 I.elemNum) (lanes.regs lane) b) := by
      intro b hb lane hlane p
      have hsend := @emit_whole w active U (castLanes active I lanes) I.dwAligned .BYTE b [.byte b]
        lane not_packed_singleton Nat.one_pos (by simp) (by simp) (by simp) p
      have hcontent : content active U (castLanes active I lanes) .BYTE [.byte b] lane 0 =
          tupleByte (elemSize I) (getValueTuple I 0 I.elemNum) (lanes.regs lane) b := by
        rw [content, if_neg not_packed_singleton]
        exact (tupleByte_singleton _ _ Nat.one_pos).trans (castLanes_byte hlane hb)
      rw [hsend]
      constructor
      · rintro ⟨k, hk, rfl⟩
        obtain rfl : k = 0 := by simpa [getFamilySize] using hk
        rw [hcontent, BitVec.add_zero]
        rfl
      · rintro rfl
        refine ⟨0, by simp [getFamilySize], ?_⟩
        rw [hcontent, BitVec.add_zero]
        rfl
    intro p
    rw [hmem]
    constructor
    · rintro ⟨type, offset, tuple, hin, lane, hlane, hp⟩
      obtain ⟨b, hb, heq⟩ := List.mem_map.mp hin
      obtain ⟨rfl, rfl, rfl⟩ := Insn.message.inj heq
      have hb := List.mem_range.mp hb
      exact ⟨b, hb, lane, hlane, (hsends b hb lane hlane p).mp hp⟩
    · rintro ⟨b, hb, lane, hlane, hp⟩
      exact ⟨_, _, _, List.mem_map.mpr ⟨b, List.mem_range.mpr hb, rfl⟩, lane, hlane,
        (hsends b hb lane hlane p).mpr hp⟩
  refine ⟨⟨Writes.write ws mem, castLanes active I lanes⟩, ?_,
    stored_of_writes (fun p hp => ?_) fun lane hlane i hi _ k hk => ?_⟩
  · rw [hl, List.foldlM_cons, exec_bitcast, if_neg hthree]
    exact hrun
  · obtain ⟨b, hb, lane, hlane, rfl⟩ := (hwrites p).mp hp
    have hpos := elemSize_pos I
    have hi : b / elemSize I < I.elemNum := by
      rw [Nat.div_lt_iff_lt_mul hpos, ← hbytes]
      exact hb
    refine ⟨lane, hlane, b / elemSize I, b % elemSize I, ⟨hi, Nat.mod_lt _ hpos, ?_⟩,
      fun hdefined => ?_⟩
    · rw [Nat.div_add_mod']
    · show tupleByte _ _ _ b = _
      rw [tupleByte, getElem?_getValueTuple.mpr ⟨hi, rfl⟩, hdefined, Nat.zero_add]
      rfl
  · refine ⟨_, (hwrites _).mpr ⟨i * elemSize I + k, ?_, lane, hlane, rfl⟩, rfl⟩
    rw [hbytes]
    exact byte_lt I hi hk

end

/-! ### Stores that go wrong -/

/-- All lanes at one address, with the same bytes in all registers. -/
def flatLanes (w a : ℕ) : Lanes w where
  addr := fun _ => BitVec.ofNat w a
  regs := fun _ rk => if rk.1 = .null then 0 else 1
  junk := fun _ _ => 0

section

variable {active : List ℕ} {U : Scalars} {I : Access}

theorem possible_flatLanes (hw : 32 ≤ w) {a alignment : ℕ} (ha : a < 2 ^ 32) (h : alignment ∣ a) :
    Possible active U (flatLanes w a) alignment where
  addr := fun _ _ => (ofNat_toNat hw ha).symm ▸ h
  null := fun _ _ => rfl
  addrUniform := fun _ _ _ => rfl
  valueUniform := fun _ _ _ _ _ => rfl

theorem tupleByte_flatLanes (size : ℕ) (tuple : List Reg) (a lane b : ℕ) :
    tupleByte size tuple ((flatLanes w a).regs lane) b ≠ 2 := by
  rw [tupleByte]
  split
  · show (if _ then (0 : BitVec 8) else 1) ≠ 2
    split <;> decide
  · decide

theorem content_flatLanes (type : Family) (tuple : List Reg) (a lane b : ℕ) :
    content active U (flatLanes w a) type tuple lane b ≠ 2 := by
  rw [content]
  split
  · split
    · exact tupleByte_flatLanes _ _ _ _ _
    · show byte 0 _ ≠ 2
      rw [Bytes.byte_zero]
      decide
  · exact tupleByte_flatLanes _ _ _ _ _

/-- The writes of a batch. -/
theorem foldlM_batched (hdirect : Direct I) (hbatched : Batched I) (s : State w) :
    ∃ ws, (emitLoadOrStore I).foldlM (exec active U I) s =
        some { s with mem := Writes.write ws s.mem } ∧
      ∀ p, p ∈ ws ↔ ∃ msg < msgNum I, ∃ lane ∈ active, p ∈ emit active U s.lanes I.dwAligned
        I.family (msg * 16) (getValueTuple I (perMsgNum I * msg) (perMsgNum I)) lane := by
  have hmessages : ∀ insn ∈ emitBatchLoadOrStore I, ∃ type offset tuple,
      insn = .message type offset tuple := by
    intro insn h
    obtain ⟨msg, -, rfl⟩ := List.mem_map.mp h
    exact ⟨_, _, _, rfl⟩
  obtain ⟨ws, hrun, hmem⟩ := @foldlM_messages w active U I _ s hmessages
  refine ⟨ws, by rw [emitLoadOrStore_batched hdirect hbatched, hrun], fun p => ?_⟩
  rw [hmem]
  constructor
  · rintro ⟨type, offset, tuple, hin, lane, hlane, hp⟩
    obtain ⟨msg, hmsg, heq⟩ := List.mem_map.mp hin
    obtain ⟨rfl, rfl, rfl⟩ := Insn.message.inj heq
    exact ⟨msg, List.mem_range.mp hmsg, lane, hlane, hp⟩
  · rintro ⟨msg, hmsg, lane, hlane, hp⟩
    exact ⟨_, _, _, List.mem_map.mpr ⟨msg, List.mem_range.mpr hmsg, rfl⟩, lane, hlane, hp⟩

/-- Packed bytes and words that are not aligned change the bytes before their address. -/
theorem not_stores_of_unaligned (hw : 32 ≤ w) (hstore : I.isLoad = false) (hn : Supported I.elemNum)
    (hdirect : Direct I) (hbatched : Batched I) (hD : I.family ≠ .DWORD) (hactive : active ≠ [])
    {alignment : ℕ} (halignment : alignment ∣ 2) : ¬ Stores w active U I alignment := by
  intro h
  obtain ⟨lane, hlane⟩ := List.exists_mem_of_ne_nil active hactive
  obtain ⟨s', hrun, hstored⟩ := h (fun _ => 2) (flatLanes w 2)
    (possible_flatLanes hw (by decide) halignment)
  obtain ⟨ws, hws, hmem⟩ := @foldlM_batched w active U I hdirect hbatched
    ⟨fun _ => 2, flatLanes w 2⟩
  obtain rfl := Option.some.inj (hws.symm.trans hrun)
  have hbatches := batches hn hbatched.family_ne
  have hpacked : ∀ msg, Packed I.family (getValueTuple I (perMsgNum I * msg) (perMsgNum I)) := by
    intro msg
    refine ⟨?_, hD, hbatched.family_ne⟩
    rw [length_getValueTuple]
    have := hbatches.pos
    have := mt hbatches.one hbatched.1
    omega
  have hsends : ∀ msg < msgNum I, ∀ lane,
      Sends (align (BitVec.ofNat w 2 + BitVec.ofNat w (msg * 16)))
      (perMsgNum I * elemSize I) (content active U (flatLanes w 2) I.family
        (getValueTuple I (perMsgNum I * msg) (perMsgNum I)) lane)
      (emit active U (flatLanes w 2) I.dwAligned I.family (msg * 16)
        (getValueTuple I (perMsgNum I * msg) (perMsgNum I)) lane) := by
    intro msg hmsg lane
    have hsend := @emit_packed w active U (flatLanes w 2) I.dwAligned I.family (msg * 16) _ lane
      (hpacked msg) (by
        rw [length_getValueTuple]
        exact dvd_batch hstore hbatched hbatches hD)
    rwa [length_getValueTuple] at hsend
  have hzero : align (BitVec.ofNat w 2 + BitVec.ofNat w (0 * 16)) + BitVec.ofNat w 0 =
      BitVec.ofNat w 0 := by
    rw [← BitVec.ofNat_add, align_ofNat hw (by decide), ← BitVec.ofNat_add]
  have hmsg : 0 < msgNum I := by
    rw [Nat.pos_iff_ne_zero]
    intro hmsg
    have := hbatches.all
    rw [hmsg, Nat.mul_zero] at this
    rw [Supported] at hn
    omega
  obtain ⟨p, hp, -, hwrite⟩ := @Writes.exists_write _ _ _ ws (fun _ => 2) (BitVec.ofNat w 0)
    ⟨_, (hmem _).mpr ⟨0, hmsg, lane, hlane, (hsends 0 hmsg lane _).mpr
      ⟨0, Nat.mul_pos hbatches.pos (elemSize_pos I), rfl⟩⟩, hzero⟩
  have hframe := hstored.frame (BitVec.ofNat w 0) fun lane _ i k hcovers => by
    obtain ⟨hi, hk, hx⟩ := hcovers
    have hlt := byte_lt I hi hk
    have hle := bytes_le hn
    have hx : BitVec.ofNat w 0 = BitVec.ofNat w 2 + BitVec.ofNat w (i * elemSize I + k) := hx
    rw [← BitVec.ofNat_add] at hx
    have := ofNat_inj hw (by decide) (by omega) hx
    omega
  obtain ⟨msg, hmsg, lane', -, hp⟩ := (hmem p).mp hp
  obtain ⟨b, -, rfl⟩ := (hsends msg hmsg lane' p).mp hp
  exact content_flatLanes _ _ _ _ _ (hwrite.symm.trans hframe)

/-- An element that is not sent is lost. -/
theorem not_stores_of_lost (hw : 32 ≤ w) (hstore : I.isLoad = false) (hn : Supported I.elemNum)
    (hdirect : Direct I) (hbatched : Batched I) (hactive : active ≠ []) {msg j alignment : ℕ}
    (hmsg : msg < msgNum I) (hj : j < perMsgNum I)
    (hdefined : I.undef (perMsgNum I * msg + j) = false)
    (hlost : ∀ lane, content active U (flatLanes w 0) I.family
      (getValueTuple I (perMsgNum I * msg) (perMsgNum I)) lane (j * elemSize I) = 0) :
    ¬ Stores w active U I alignment := by
  intro h
  obtain ⟨lane, hlane⟩ := List.exists_mem_of_ne_nil active hactive
  obtain ⟨s', hrun, hstored⟩ := h (fun _ => 0) (flatLanes w 0)
    (possible_flatLanes hw (by decide) (Nat.dvd_zero _))
  obtain ⟨ws, hws, hmem⟩ := @foldlM_batched w active U I hdirect hbatched
    ⟨fun _ => 0, flatLanes w 0⟩
  obtain rfl := Option.some.inj (hws.symm.trans hrun)
  have hbatches := batches hn hbatched.family_ne
  have hle := bytes_le hn
  have hpos := elemSize_pos I
  have hplace : ∀ msg' < msgNum I, ∀ b < perMsgNum I * elemSize I, msg' * 16 + b < 2 ^ 32 ∧
      (msg' * 16 + b = (perMsgNum I * msg + j) * elemSize I → msg' = msg ∧ b = j * elemSize I) := by
    intro msg' hmsg' b hb
    have hsum : (perMsgNum I * msg + j) * elemSize I = msg * 16 + j * elemSize I := by
      rw [Nat.add_mul, hbatches.offset hmsg]
    have hjlt : j * elemSize I < perMsgNum I * elemSize I := Nat.mul_lt_mul_of_pos_right hj hpos
    have hbytes := hbatches.bytes
    have hcount : msgNum I ≤ 128 := by
      calc msgNum I ≤ perMsgNum I * msgNum I := Nat.le_mul_of_pos_left _ hbatches.pos
        _ = I.elemNum := hbatches.all
        _ ≤ I.elemNum * elemSize I := Nat.le_mul_of_pos_right _ hpos
        _ ≤ 128 := hle
    refine ⟨by omega, fun heq => ?_⟩
    rw [hsum] at heq
    rcases hbatches.full with hone | hfull
    · omega
    · omega
  have hi : perMsgNum I * msg + j < I.elemNum := by
    calc perMsgNum I * msg + j < perMsgNum I * msg + perMsgNum I := Nat.add_lt_add_left hj _
      _ = perMsgNum I * (msg + 1) := rfl
      _ ≤ perMsgNum I * msgNum I := Nat.mul_le_mul_left _ hmsg
      _ = I.elemNum := hbatches.all
  have hvalue := hstored.value (BitVec.ofNat w ((perMsgNum I * msg + j) * elemSize I)) 1
    ⟨lane, hlane, _, 0, hi, hpos, (BitVec.zero_add _).symm⟩ fun lane' _ i k hcovers => by
      obtain ⟨hi', hk, hx⟩ := hcovers
      have hlt := byte_lt I hi' hk
      have hlt' := byte_lt I hi hpos
      have hx : BitVec.ofNat w ((perMsgNum I * msg + j) * elemSize I) =
          BitVec.ofNat w 0 + BitVec.ofNat w (i * elemSize I + k) := hx
      rw [← BitVec.ofNat_add, Nat.zero_add] at hx
      have heq := ofNat_inj hw (by omega) (by omega) hx
      have hindex : i = perMsgNum I * msg + j := by
        have hdiv := congrArg (· / elemSize I) heq
        simp only [Nat.mul_div_cancel _ hpos] at hdiv
        rw [hdiv, Nat.mul_comm, Nat.mul_add_div hpos, Nat.div_eq_of_lt hk, Nat.add_zero]
      exact ⟨hindex ▸ hdefined, rfl⟩
  have hzero : Writes.write ws (fun _ => 0)
      (BitVec.ofNat w ((perMsgNum I * msg + j) * elemSize I)) = 0 := by
    refine Writes.write_of_forall rfl fun p hp hpx => ?_
    obtain ⟨msg', hmsg', lane', hlane', hp⟩ := (hmem p).mp hp
    have hsends := @sends_of_direct w active U I (flatLanes w 0) (perMsgNum I * msg')
      (getValueTuple I (perMsgNum I * msg') (perMsgNum I)) lane' hdirect
      (by rw [length_getValueTuple]; exact hbatches.pos)
      (fun _ => by
        rw [hbatches.offset hmsg']
        exact dvd_add (by omega) (by simp [flatLanes]) (by omega))
      (fun hf => absurd hf hbatched.family_ne)
      fun hpacked => by
        rw [length_getValueTuple]
        exact dvd_batch hstore hbatched hbatches hpacked.2.1
    rw [hbatches.offset hmsg', length_getValueTuple] at hsends
    obtain ⟨b, hb, rfl⟩ := (hsends p).mp hp
    obtain ⟨hlt, hunique⟩ := hplace msg' hmsg' b hb
    have hlt' := byte_lt I hi hpos
    have hpx : BitVec.ofNat w 0 + BitVec.ofNat w (msg' * 16) + BitVec.ofNat w b =
        BitVec.ofNat w ((perMsgNum I * msg + j) * elemSize I) := hpx
    rw [ofNat_add, ← BitVec.ofNat_add, Nat.zero_add] at hpx
    obtain ⟨rfl, rfl⟩ := hunique (ofNat_inj hw hlt (by omega) hpx)
    exact hlost lane'
  exact absurd (hzero.symm.trans hvalue) (by decide)

theorem not_stores_of_three (hstore : I.isLoad = false) (hdirect : ¬ Direct I)
    (hthree : I.elemNum = 3) {alignment : ℕ} : ¬ Stores w active U I alignment := by
  intro h
  obtain ⟨haligned, hfamily⟩ := not_direct hdirect
  obtain ⟨s', hrun, -⟩ := h (fun _ => 0) ⟨fun _ => 0, fun _ _ => 0, fun _ _ => 0⟩
    ⟨fun _ _ => Nat.dvd_zero _, fun _ _ => rfl, fun _ _ _ => rfl, fun _ _ _ _ _ => rfl⟩
  have hl : emitLoadOrStore I =
      .BITCAST .BYTE I.family (byteTuple I) (getValueTuple I 0 I.elemNum) ::
        (List.range (getTypeByteSize I)).map fun b => .message .BYTE b [.byte b] := by
    rw [emitLoadOrStore_unalignedDQ haligned hfamily, emitUnalignedDQLoadStore, hstore]
    rfl
  rw [hl, List.foldlM_cons, exec_bitcast, if_pos hthree] at hrun
  cases hrun

/-- A null register is stored as zero. -/
theorem content_null {type : Family} {tuple : List Reg} {lane j : ℕ}
    (hnull : tuple[j]? = some .null) :
    content active U (flatLanes w 0) type tuple lane (j * getFamilySize type) = 0 := by
  have hpos : 0 < getFamilySize type := by
    cases type <;> decide
  have hbyte : ∀ l, tupleByte (getFamilySize type) tuple ((flatLanes w 0).regs l)
      (j * getFamilySize type) = 0 := by
    intro l
    rw [tupleByte, Nat.mul_div_cancel _ hpos, hnull]
    rfl
  rw [content]
  split
  · split
    · exact hbyte _
    · exact Bytes.byte_zero _
  · exact hbyte _

/-- What a scalar temporary held before is stored, where its lane is not active. -/
theorem content_junk {type : Family} {tuple : List Reg} {lane b : ℕ} (hpacked : Packed type tuple)
    (huniform : isUniform U tuple = true) (h0 : 0 ∉ active) (h8 : 8 ∉ active) :
    content active U (flatLanes w 0) type tuple lane b = 0 := by
  rw [content, if_pos hpacked, tmpLane, if_pos huniform, if_neg h8, if_neg h0]
  exact Bytes.byte_zero _

theorem stores_of_no_lane (hdirect : Direct I) {alignment : ℕ} : Stores w [] U I alignment := by
  intro mem lanes _
  have hmessages : ∀ insn ∈ emitLoadOrStore I, ∃ type offset tuple,
      insn = .message type offset tuple := by
    intro insn h
    by_cases hone : I.elemNum = 1
    · rw [emitLoadOrStore_scalar hdirect hone] at h
      exact ⟨_, _, _, List.mem_singleton.mp h⟩
    by_cases hbatched : Batched I
    · rw [emitLoadOrStore_batched hdirect hbatched] at h
      obtain ⟨msg, -, rfl⟩ := List.mem_map.mp h
      exact ⟨_, _, _, rfl⟩
    · rw [emitLoadOrStore_elements hdirect hone hbatched] at h
      obtain ⟨elemID, -, rfl⟩ := List.mem_map.mp h
      exact ⟨_, _, _, rfl⟩
  obtain ⟨ws, hrun, hmem⟩ := @foldlM_messages w [] U I _ ⟨mem, lanes⟩ hmessages
  refine ⟨_, hrun, stored_of_writes (fun p hp => ?_) fun lane hlane => ?_⟩
  · obtain ⟨_, _, _, _, lane, hlane, -⟩ := (hmem p).mp hp
    cases hlane
  · cases hlane

end

/-- **Stores write the stored value and nothing else**, but for unaligned dwords and qwords of
three elements, packed bytes and words that are not aligned or are in a scalar temporary whose
lane is not active, and batches with elements that are lost. -/
theorem stores_iff (hw : 32 ≤ w) (active : List ℕ) (U : Scalars) (family : Family) {n : ℕ}
    (hn : Supported n) (e : ℕ) (constant : Bool) (undef : ℕ → Bool) :
    Stores w active U (storeAccess family n (2 ^ e) constant undef) (2 ^ e) ↔
      (Direct (storeAccess family n (2 ^ e) constant undef) ∨ n ≠ 3) ∧
      (active ≠ [] → Direct (storeAccess family n (2 ^ e) constant undef) →
        Batched (storeAccess family n (2 ^ e) constant undef) →
          KeepsValues (storeAccess family n (2 ^ e) constant undef) ∧
          (family ≠ .DWORD → 4 ∣ 2 ^ e ∧
            Temporaries active U (storeAccess family n (2 ^ e) constant undef))) := by
  obtain ⟨I, hI⟩ : ∃ I, I = storeAccess family n (2 ^ e) constant undef := ⟨_, rfl⟩
  rw [← hI]
  have hstore : I.isLoad = false := by rw [hI]; rfl
  have hnum : I.elemNum = n := by rw [hI]; rfl
  have hfamily : I.family = family := by rw [hI]; rfl
  have haligned : I.dwAligned = true ↔ 4 ∣ 2 ^ e := by
    rw [hI]
    show decide (2 ^ e % 4 = 0) = true ↔ _
    rw [decide_eq_true_iff, Nat.dvd_iff_mod_eq_zero]
  rw [← hnum] at hn
  constructor
  · refine fun h => ⟨?_, fun hactive hdirect hbatched => ?_⟩
    · rw [← hnum, or_iff_not_imp_left]
      exact fun hdirect hthree => not_stores_of_three hstore hdirect hthree h
    have hbatches := batches hn hbatched.family_ne
    refine ⟨fun msg hmsg j hj hundef => ?_, fun hD => ⟨?_, fun msg hmsg huniform => ?_⟩⟩
    · rw [← Bool.not_eq_false]
      intro hdefined
      refine not_stores_of_lost hw hstore hn hdirect hbatched hactive hmsg hj hdefined
        (fun lane => content_null ?_) h
      rw [getElem?_getValueTuple, if_pos hundef]
      exact ⟨hj, rfl⟩
    · by_contra hodd
      have he : e < 2 := by
        by_contra he
        exact hodd (pow_dvd_pow 2 (not_lt.mp he))
      have htwo : 2 ^ e ∣ 2 := pow_dvd_pow 2 (show e ≤ 1 by omega)
      exact not_stores_of_unaligned hw hstore hn hdirect hbatched (hfamily ▸ hD) hactive htwo h
    · by_contra hlane
      simp only [not_or, not_forall, Bool.not_eq_true] at hlane
      obtain ⟨h0, h8, j, hj, hdefined⟩ := hlane
      refine not_stores_of_lost hw hstore hn hdirect hbatched hactive hmsg hj hdefined
        (fun lane => content_junk ⟨?_, hfamily ▸ hD, hbatched.family_ne⟩ huniform h0 h8) h
      rw [length_getValueTuple]
      have := hbatches.pos
      have := mt hbatches.one hbatched.1
      omega
  · rintro ⟨hthree, hbatch⟩
    by_cases hdirect : Direct I
    · by_cases hactive : active = []
      · rw [hactive]
        exact stores_of_no_lane hdirect
      · intro mem lanes hpossible
        refine stores_of_direct (by omega) hstore hn hdirect hpossible (fun ha lane hlane => ?_)
          fun hbatched => ?_
        · exact (haligned.mp ha).trans (hpossible.addr lane hlane)
        · rw [hfamily, haligned]
          exact hbatch hactive hdirect hbatched
    · intro mem lanes _
      obtain ⟨hodd, hDQ⟩ := not_direct hdirect
      exact stores_unalignedDQ hstore hodd hDQ (hnum ▸ hthree.resolve_left hdirect)

/-- Four words at a dword, from two lanes. -/
theorem stores_short4 :
    Stores 64 [0, 5] ⟨false, fun _ => false⟩ (storeAccess .WORD 4 (2 ^ 2) false fun _ => false)
      (2 ^ 2) :=
  (stores_iff (by decide) [0, 5] ⟨false, fun _ => false⟩ .WORD (by decide) 2 false
    fun _ => false).mpr ⟨.inr (by decide), fun _ _ _ => ⟨fun _ _ _ _ h => h, fun _ => ⟨dvd_rfl,
      fun _ _ _ => .inl (by decide)⟩⟩⟩

/-- Two words at an address that is not that of a dword. -/
theorem stores_short2 :
    ¬ Stores 32 [0] ⟨false, fun _ => false⟩ (storeAccess .WORD 2 2 false fun _ => false) 2 :=
  not_stores_of_unaligned le_rfl rfl (by decide) (.inr ⟨by decide, by decide⟩)
    ⟨by decide, .inr (.inl ⟨rfl, .inr rfl⟩)⟩ (by decide) (by decide) dvd_rfl

end StoreMessages

end Backend
