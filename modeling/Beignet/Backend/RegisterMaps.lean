/-
The two register maps of the allocator (`gen_reg_allocation.cpp`,
`gen_reg_allocation_map.hpp`), as built by default, with `USE_PHASE5A_OPTIMIZATIONS`.

`RA` is the old `std::map`, whose `insert` keeps what is there; `registerMap_` is the new array
with a mark for what is unmapped, whose `insert` overwrites.  An action is one place of the
allocator that touches them, with the tests and assertions before it, less the assertions that
compare the two maps.  Which registers and holes are taken and which offsets the register file
gives is left open: the results are about every order of actions.

* `RegisterMap.lookup_insert` — the array is a partial function that is updated.
* **`maps_disagree`** — from `allocateSpecialRegs` on the maps are never the same.
-/
import Mathlib

namespace Backend

namespace RegisterMaps

/-! ### RegisterMap -/

def UNMAPPED : ℕ := 4294967295

structure RegisterMap where
  physicalOffsets : List ℕ
  reverseMap : ℕ → Option ℕ
  needReverseMap : Bool

namespace RegisterMap

def insert (m : RegisterMap) (reg offset : ℕ) : RegisterMap :=
  let offsets := m.physicalOffsets ++ List.replicate (reg + 1 - m.physicalOffsets.length) UNMAPPED
  { m with
    physicalOffsets := offsets.set reg offset
    reverseMap :=
      if m.needReverseMap then Function.update m.reverseMap offset (some reg) else m.reverseMap }

def get (m : RegisterMap) (reg : ℕ) : ℕ :=
  if reg ≥ m.physicalOffsets.length then UNMAPPED else m.physicalOffsets.getD reg UNMAPPED

def contains (m : RegisterMap) (reg : ℕ) : Bool :=
  reg < m.physicalOffsets.length && m.physicalOffsets.getD reg UNMAPPED != UNMAPPED

def erase (m : RegisterMap) (reg : ℕ) : RegisterMap :=
  if reg < m.physicalOffsets.length then
    let offset := m.physicalOffsets.getD reg UNMAPPED
    { m with
      physicalOffsets := m.physicalOffsets.set reg UNMAPPED
      reverseMap :=
        if m.needReverseMap && offset != UNMAPPED then Function.update m.reverseMap offset none
        else m.reverseMap }
  else m

/-- The partial function that the array stands for. -/
def lookup (m : RegisterMap) (reg : ℕ) : Option ℕ :=
  if m.contains reg then some (m.get reg) else none

theorem get_eq (m : RegisterMap) (reg : ℕ) : m.get reg = m.physicalOffsets.getD reg UNMAPPED := by
  unfold get
  split
  · rename_i h
    rw [List.getD_eq_getElem?_getD, List.getElem?_eq_none h, Option.getD_none]
  · rfl

theorem contains_iff (m : RegisterMap) (reg : ℕ) :
    m.contains reg = true ↔ m.get reg ≠ UNMAPPED := by
  rw [contains, get]
  split
  · rename_i h
    simp [Nat.not_lt.mpr h]
  · rename_i h
    simp [Nat.lt_of_not_ge h]

theorem get_insert (m : RegisterMap) (reg offset r : ℕ) :
    (m.insert reg offset).get r = if r = reg then offset else m.get r := by
  rw [get_eq, get_eq]
  simp only [insert, List.getD_eq_getElem?_getD, List.getElem?_set]
  by_cases h : r = reg
  · subst h
    have : r < m.physicalOffsets.length + (r + 1 - m.physicalOffsets.length) := by omega
    simp [this]
  · rw [if_neg (Ne.symm h), if_neg h, List.getElem?_append]
    split
    · rfl
    · rename_i hlen
      rw [List.getElem?_eq_none (Nat.le_of_not_lt hlen), List.getElem?_replicate]
      split <;> rfl

theorem lookup_eq_some_iff (m : RegisterMap) (reg offset : ℕ) :
    m.lookup reg = some offset ↔ offset ≠ UNMAPPED ∧ m.get reg = offset := by
  unfold lookup
  split
  · rename_i h
    rw [contains_iff] at h
    simp only [Option.some.injEq]
    constructor
    · rintro rfl
      exact ⟨h, rfl⟩
    · exact And.right
  · rename_i h
    rw [contains_iff, not_not] at h
    rw [h]
    simp only [reduceCtorEq, false_iff, not_and]
    exact fun hne h' => hne h'.symm

theorem get_erase (m : RegisterMap) (reg r : ℕ) :
    (m.erase reg).get r = if r = reg then UNMAPPED else m.get r := by
  rw [get_eq, get_eq, erase]
  split
  · rename_i hlen
    simp only [List.getD_eq_getElem?_getD, List.getElem?_set]
    by_cases h : r = reg
    · simp [h, hlen]
    · simp [h, Ne.symm h]
  · rename_i hlen
    by_cases h : r = reg
    · subst h
      rw [if_pos rfl, List.getD_eq_getElem?_getD, List.getElem?_eq_none (Nat.le_of_not_lt hlen),
        Option.getD_none]
    · rw [if_neg h]

theorem lookup_insert (m : RegisterMap) {reg offset : ℕ} (h : offset ≠ UNMAPPED) :
    (m.insert reg offset).lookup = Function.update m.lookup reg (some offset) := by
  funext r
  apply Option.ext
  intro o
  rw [lookup_eq_some_iff, get_insert]
  by_cases hr : r = reg
  · subst hr
    simp only [if_true, Function.update_self, Option.some.injEq]
    constructor
    · exact And.right
    · rintro rfl
      exact ⟨h, rfl⟩
  · rw [if_neg hr, Function.update_of_ne hr, lookup_eq_some_iff]

end RegisterMap

/-! ### The allocator -/

/-- Special registers of the profile. -/
def groupid0 : ℕ := 3
def groupid1 : ℕ := 4
def groupid2 : ℕ := 5
def barrierid : ℕ := 24
/-- `ocl::regNum` -/
def specialRegNum : ℕ := 41

inductive RegisterFamily where
  | FAMILY_BOOL | FAMILY_BYTE | FAMILY_WORD | FAMILY_DWORD | FAMILY_QWORD | FAMILY_OWORD
  | FAMILY_HWORD | FAMILY_REG
  deriving DecidableEq

/-- `familyVectorSize` and `familyScalarSize` -/
def RegisterFamily.size : RegisterFamily → ℕ
  | .FAMILY_BOOL | .FAMILY_BYTE | .FAMILY_WORD => 2
  | .FAMILY_DWORD => 4
  | .FAMILY_QWORD => 8
  | .FAMILY_OWORD => 16
  | .FAMILY_HWORD | .FAMILY_REG => 32

def GEN_REG_SIZE : ℕ := 32

/-- An offset that the register file gives. -/
def InFile (offset : ℕ) : Prop := GEN_REG_SIZE ≤ offset ∧ offset < 4096

instance (offset : ℕ) : Decidable (InFile offset) := inferInstanceAs (Decidable (_ ∧ _))

/-- What the earlier passes leave. -/
structure Input where
  simdWidth : ℕ
  /-- registers of the function; the selection has added those behind -/
  regNum : ℕ
  family : ℕ → RegisterFamily
  isScalarReg : ℕ → Bool
  isPayloadReg : ℕ → Bool
  isPartialWrite : ℕ → Bool
  flagBooleans : ℕ → Bool
  isHole : ℕ → Bool
  reservedReg : ℕ
  /-- filled by `allocateCurbePayload`, with payload registers only -/
  curbeRegs : List (ℕ × ℕ)
  /-- pushed registers in use, with the offset of the argument and the one inside it -/
  pushMap : List (ℕ × ℕ × ℕ)
  simdWidth_eq : simdWidth = 8 ∨ simdWidth = 16
  barrierid_family : family barrierid = .FAMILY_DWORD
  barrierid_scalar : isScalarReg barrierid = true
  barrierid_payload : isPayloadReg barrierid = false
  curbeRegs_payload : ∀ b ∈ curbeRegs, isPayloadReg b.1 = true ∧ InFile b.2
  pushMap_reg : ∀ b ∈ pushMap, specialRegNum ≤ b.1 ∧ InFile (b.2.1 + b.2.2)

def Input.getRegAttrib (P : Input) (reg : ℕ) : ℕ :=
  if P.family reg = .FAMILY_REG then 32
  else if P.isScalarReg reg then (P.family reg).size
  else P.simdWidth * (P.family reg).size

/-- The tables of `GenRegAllocator::Opaque` that the places below read and write. -/
structure Opaque where
  RA : ℕ → Option ℕ
  registerMap : RegisterMap
  offsetReg : ℕ → Option ℕ
  spillCandidate : ℕ → Bool
  spilledRegs : ℕ → Bool
  usedHole : ℕ → Bool

def Opaque.init : Opaque where
  RA _ := none
  registerMap := ⟨[], fun _ => none, true⟩
  offsetReg _ := none
  spillCandidate _ := false
  spilledRegs _ := false
  usedHole _ := false

/-- `std::map::insert` keeps the value that is there. -/
def mapInsert (m : ℕ → Option ℕ) (key value : ℕ) : ℕ → Option ℕ :=
  if (m key).isSome then m else Function.update m key (some value)

def allocatePayloadReg (s : Opaque) (reg offset subOffset : ℕ) : Opaque :=
  { s with
    RA := mapInsert s.RA reg (offset + subOffset)
    registerMap := s.registerMap.insert reg (offset + subOffset) }

def allocateSpecialRegs (P : Input) : Opaque :=
  let s := P.curbeRegs.foldl (fun s b => allocatePayloadReg s b.1 b.2 0) .init
  let s := P.pushMap.foldl (fun s b => allocatePayloadReg s b.1 b.2.1 b.2.2) s
  -- group and barrier identifiers are in `r0`
  let RA := mapInsert s.RA groupid0 (1 * 4)
  let RA := mapInsert RA groupid1 (6 * 4)
  let RA := mapInsert RA groupid2 (7 * 4)
  { s with RA := mapInsert RA barrierid (2 * 4) }

/-- The register may be spilled later. -/
def spillable (P : Input) (reg : ℕ) : Bool :=
  P.reservedReg != 0 && !(P.simdWidth == 16 && reg ≥ P.regNum) &&
    ((P.getRegAttrib reg == P.simdWidth / 8 * GEN_REG_SIZE && P.family reg == .FAMILY_DWORD) ||
      (P.getRegAttrib reg == 2 * P.simdWidth / 8 * GEN_REG_SIZE &&
        P.family reg == .FAMILY_QWORD)) &&
    !P.isPartialWrite reg

def insertNewReg (P : Input) (s : Opaque) (reg grfOffset : ℕ) : Opaque :=
  let s := { s with
    RA := mapInsert s.RA reg grfOffset
    registerMap := s.registerMap.insert reg grfOffset }
  if spillable P reg then
    { s with
      offsetReg := mapInsert s.offsetReg grfOffset reg
      spillCandidate := Function.update s.spillCandidate reg true }
  else s

/-- `expireReg`, with what it returns; `none` where the assertion fails. -/
def expireReg (P : Input) (s : Opaque) (reg : ℕ) : Option (Opaque × Bool) :=
  if s.usedHole reg && !P.isHole reg then some (s, true)
  else if P.flagBooleans reg then some (s, false)
  else if !s.registerMap.contains reg then none
  else
    let offset := s.registerMap.get reg
    if offset < 32 then some (s, false)
    else if P.reservedReg != 0 && s.spillCandidate reg then
      some ({ s with
        spillCandidate := Function.update s.spillCandidate reg false
        offsetReg := Function.update s.offsetReg offset none }, true)
    else some (s, true)

def spillReg (P : Input) (s : Opaque) (reg : ℕ) (isAllocated : Bool) : Option Opaque :=
  if P.reservedReg = 0 then some s
  else if reg ≥ P.regNum ∧ P.simdWidth = 16 then some s
  else if P.family reg ≠ .FAMILY_DWORD ∧ P.family reg ≠ .FAMILY_QWORD then some s
  else if isAllocated then
    match expireReg P s reg with
    | some (s, true) =>
      some { s with
        RA := Function.update s.RA reg none
        spilledRegs := Function.update s.spilledRegs reg true }
    | _ => none
  else some { s with spilledRegs := Function.update s.spilledRegs reg true }

/-- What the allocator does after `allocateSpecialRegs`. -/
inductive Action where
  /-- `createGenReg` puts a register into the hole of another -/
  | reuseHole (reg holereg : ℕ)
  /-- `createGenReg` gives a register an offset -/
  | create (reg grfOffset : ℕ)
  /-- `allocateGRFs` gives a register of a vector an offset -/
  | vectorReg (reg grfOffset : ℕ)
  | expire (reg : ℕ)
  | spill (reg : ℕ) (isAllocated : Bool)

/-- One action; `none` where a test or an assertion before it does not let it happen. -/
def step (P : Input) (s : Opaque) : Action → Option Opaque
  | .reuseHole reg holereg =>
    if s.registerMap.contains reg then none
    else if s.registerMap.contains holereg then
      let grfOffset := s.registerMap.get holereg
      some { s with
        registerMap := s.registerMap.insert reg grfOffset
        RA := mapInsert s.RA reg grfOffset
        usedHole := Function.update s.usedHole holereg true }
    else some s
  | .create reg grfOffset =>
    if s.registerMap.contains reg ∨ ¬ InFile grfOffset then none
    else some (insertNewReg P s reg grfOffset)
  | .vectorReg reg grfOffset =>
    if (s.RA reg).isSome ∨ ¬ InFile grfOffset then none
    else some (insertNewReg P s reg grfOffset)
  | .expire reg => (expireReg P s reg).map Prod.fst
  | .spill reg isAllocated =>
    -- only candidates are spilled once they are allocated
    if isAllocated && !s.spillCandidate reg then none else spillReg P s reg isAllocated

/-- The state after a run of the allocator. -/
def run (P : Input) (actions : List Action) : Option Opaque :=
  actions.foldlM (step P) (allocateSpecialRegs P)

/-- Both maps are the same partial function. -/
def Agree (s : Opaque) : Prop := s.RA = s.registerMap.lookup

theorem InFile.mapped {offset : ℕ} (h : InFile offset) : offset ≠ UNMAPPED := by
  intro he
  rw [he] at h
  exact absurd h.2 (by decide)

theorem mapInsert_of_none {m : ℕ → Option ℕ} {key value : ℕ} (h : m key = none) :
    mapInsert m key value = Function.update m key (some value) := by
  simp [mapInsert, h]

theorem mapInsert_of_ne {m : ℕ → Option ℕ} {key value r : ℕ} (h : r ≠ key) :
    mapInsert m key value r = m r := by
  unfold mapInsert
  split
  · rfl
  · exact Function.update_of_ne h _ _

theorem mapInsert_of_some {m : ℕ → Option ℕ} {key value r o : ℕ} (h : m r = some o) :
    mapInsert m key value r = some o := by
  by_cases hr : r = key
  · subst hr
    simp [mapInsert, h]
  · rw [mapInsert_of_ne hr, h]

/-! ### The maps are never the same -/

/-- The mapped offsets of `registerMap_` are in the register file. -/
def AllInFile (m : RegisterMap) : Prop := ∀ r o, m.lookup r = some o → GEN_REG_SIZE ≤ o

theorem AllInFile.insert {m : RegisterMap} (h : AllInFile m) {reg offset : ℕ}
    (hfile : GEN_REG_SIZE ≤ offset) (hmapped : offset ≠ UNMAPPED) :
    AllInFile (m.insert reg offset) := by
  intro r o hr
  rw [RegisterMap.lookup_insert m hmapped] at hr
  by_cases he : r = reg
  · subst he
    rw [Function.update_self, Option.some.injEq] at hr
    exact hr ▸ hfile
  · rw [Function.update_of_ne he] at hr
    exact h r o hr

/-- The barrier register is in `r0` by the old map, and not by the new one. -/
structure Parted (s : Opaque) : Prop where
  RA : s.RA barrierid = some 8
  file : AllInFile s.registerMap
  notCandidate : s.spillCandidate barrierid = false

theorem Parted.not_agree {s : Opaque} (h : Parted s) : ¬ Agree s := by
  intro hagree
  have hlookup : s.registerMap.lookup barrierid = some 8 := by
    rw [← hagree]
    exact h.RA
  exact absurd (h.file barrierid 8 hlookup) (by decide)

variable {P : Input} {s s' : Opaque}

/-- What holds while the payload registers are entered. -/
structure PayloadInv (s : Opaque) : Prop where
  RA : s.RA barrierid = none
  file : AllInFile s.registerMap
  notCandidate : s.spillCandidate barrierid = false

theorem PayloadInv.allocatePayloadReg (h : PayloadInv s) {reg offset subOffset : ℕ}
    (hreg : barrierid ≠ reg) (hfile : InFile (offset + subOffset)) :
    PayloadInv (allocatePayloadReg s reg offset subOffset) where
  RA := by
    show mapInsert s.RA reg (offset + subOffset) barrierid = none
    rw [mapInsert_of_ne hreg]
    exact h.RA
  file := h.file.insert hfile.1 hfile.mapped
  notCandidate := h.notCandidate

theorem foldl_payloadInv {β : Type} {f : Opaque → β → Opaque} {l : List β}
    (hf : ∀ s, ∀ b ∈ l, PayloadInv s → PayloadInv (f s b)) (h : PayloadInv s) :
    PayloadInv (l.foldl f s) :=
  List.foldlRecOn l f h fun s hs b hb => hf s b hb hs

theorem init_payloadInv : PayloadInv .init :=
  ⟨rfl, fun r o h => by simp [Opaque.init, RegisterMap.lookup, RegisterMap.contains] at h, rfl⟩

theorem allocateSpecialRegs_parted (P : Input) : Parted (allocateSpecialRegs P) := by
  have hcurbe :
      PayloadInv (P.curbeRegs.foldl (fun s b => allocatePayloadReg s b.1 b.2 0) .init) := by
    refine foldl_payloadInv ?_ init_payloadInv
    intro s b hb h
    obtain ⟨hpay, hfile⟩ := P.curbeRegs_payload b hb
    refine h.allocatePayloadReg ?_ hfile
    intro he
    rw [← he, P.barrierid_payload] at hpay
    exact absurd hpay (by decide)
  have hpush : PayloadInv (P.pushMap.foldl (fun s b => allocatePayloadReg s b.1 b.2.1 b.2.2)
      (P.curbeRegs.foldl (fun s b => allocatePayloadReg s b.1 b.2 0) .init)) := by
    refine foldl_payloadInv ?_ hcurbe
    intro s b hb h
    obtain ⟨hreg, hfile⟩ := P.pushMap_reg b hb
    refine h.allocatePayloadReg ?_ hfile
    intro he
    rw [← he] at hreg
    exact absurd hreg (by decide)
  refine ⟨?_, hpush.file, hpush.notCandidate⟩
  -- the three insertions before do not touch the register
  have hnone := hpush.RA
  simp only [allocateSpecialRegs]
  rw [mapInsert_of_none, Function.update_self]
  rw [mapInsert_of_ne (by decide), mapInsert_of_ne (by decide), mapInsert_of_ne (by decide)]
  exact hnone

/-- A scalar is too small to be spilled. -/
theorem spillable_barrierid (P : Input) : spillable P barrierid = false := by
  have hsize : P.getRegAttrib barrierid = 4 := by
    simp [Input.getRegAttrib, P.barrierid_family, P.barrierid_scalar, RegisterFamily.size]
  have hwidth : P.simdWidth / 8 * GEN_REG_SIZE ≠ 4 := by
    rcases P.simdWidth_eq with h | h <;> simp [h, GEN_REG_SIZE]
  simp only [spillable, hsize, P.barrierid_family]
  simp [hwidth.symm]

theorem Parted.insertNewReg (h : Parted s) {reg grfOffset : ℕ} (hfile : InFile grfOffset) :
    Parted (insertNewReg P s reg grfOffset) := by
  have hRA : mapInsert s.RA reg grfOffset barrierid = some 8 := mapInsert_of_some h.RA
  have hmap : AllInFile (s.registerMap.insert reg grfOffset) :=
    h.file.insert hfile.1 hfile.mapped
  unfold RegisterMaps.insertNewReg
  split
  · rename_i hspill
    refine ⟨hRA, hmap, ?_⟩
    have hne : barrierid ≠ reg := by
      rintro rfl
      rw [spillable_barrierid] at hspill
      exact absurd hspill (by decide)
    show Function.update s.spillCandidate reg true barrierid = false
    rw [Function.update_of_ne hne]
    exact h.notCandidate
  · exact ⟨hRA, hmap, h.notCandidate⟩

/-- Expiration changes neither map. -/
theorem expireReg_maps {reg : ℕ} {ret : Bool} (h : expireReg P s reg = some (s', ret)) :
    s'.RA = s.RA ∧ s'.registerMap = s.registerMap ∧
      ∀ r, s'.spillCandidate r = true → s.spillCandidate r = true := by
  have hsame : ∀ b, some (s, b) = some (s', ret) → s'.RA = s.RA ∧
      s'.registerMap = s.registerMap ∧
      ∀ r, s'.spillCandidate r = true → s.spillCandidate r = true := by
    rintro b ⟨⟩
    exact ⟨rfl, rfl, fun _ h => h⟩
  simp only [expireReg] at h
  split_ifs at h
  · exact hsame _ h
  · exact hsame _ h
  · exact hsame _ h
  · obtain ⟨rfl, -⟩ := h
    refine ⟨rfl, rfl, fun r hr => ?_⟩
    by_cases hreg : r = reg
    · subst hreg
      simp at hr
    · simpa [hreg] using hr
  · exact hsame _ h

theorem Parted.of_maps (h : Parted s) (hRA : s'.RA = s.RA) (hmap : s'.registerMap = s.registerMap)
    (hcand : ∀ r, s'.spillCandidate r = true → s.spillCandidate r = true) : Parted s' where
  RA := by rw [hRA, h.RA]
  file := by rw [hmap]; exact h.file
  notCandidate := by
    by_contra hc
    have := hcand barrierid (by simpa using hc)
    rw [h.notCandidate] at this
    exact absurd this (by decide)

/-- The cases of a spill: nothing but the table of spilled registers changes, or the register is
erased from the old map alone. -/
theorem spillReg_cases {reg : ℕ} {isAllocated : Bool}
    (h : spillReg P s reg isAllocated = some s') :
    (s'.RA = s.RA ∧ s'.registerMap = s.registerMap ∧ s'.spillCandidate = s.spillCandidate) ∨
      (isAllocated = true ∧ s'.RA = Function.update s.RA reg none ∧
        s'.registerMap = s.registerMap ∧
        ∀ r, s'.spillCandidate r = true → s.spillCandidate r = true) := by
  unfold spillReg at h
  split_ifs at h with h1 h2 h3 h4
  · cases h
    exact .inl ⟨rfl, rfl, rfl⟩
  · cases h
    exact .inl ⟨rfl, rfl, rfl⟩
  · cases h
    exact .inl ⟨rfl, rfl, rfl⟩
  · split at h
    · rename_i t ht
      obtain ⟨hRA, hmap, hcand⟩ := expireReg_maps ht
      cases h
      exact .inr ⟨h4, by rw [← hRA], hmap, hcand⟩
    · cases h
  · cases h
    exact .inl ⟨rfl, rfl, rfl⟩

theorem Parted.spillReg (h : Parted s) {reg : ℕ} {isAllocated : Bool}
    (hcand : isAllocated = true → s.spillCandidate reg = true)
    (he : spillReg P s reg isAllocated = some s') : Parted s' := by
  obtain ⟨hRA, hmap, hc⟩ | ⟨hall, hRA, hmap, hc⟩ := spillReg_cases he
  · exact h.of_maps hRA hmap fun r hr => by rwa [hc] at hr
  · have hne : barrierid ≠ reg := by
      rintro rfl
      have := hcand hall
      rw [h.notCandidate] at this
      exact absurd this (by decide)
    -- away from the spilled register the old map is as it was
    refine ⟨?_, by rw [hmap]; exact h.file, ?_⟩
    · rw [hRA, Function.update_of_ne hne]
      exact h.RA
    · by_contra hb
      have := hc barrierid (by simpa using hb)
      rw [h.notCandidate] at this
      exact absurd this (by decide)

/-- Every action keeps the maps apart. -/
theorem Parted.step (h : Parted s) {a : Action} (he : step P s a = some s') : Parted s' := by
  cases a with
  | reuseHole reg holereg =>
    simp only [RegisterMaps.step] at he
    split_ifs at he with h1 h2
    · cases he
      have hmapped := (RegisterMap.contains_iff _ _).mp h2
      have hfile := h.file holereg _ ((RegisterMap.lookup_eq_some_iff _ _ _).mpr ⟨hmapped, rfl⟩)
      exact ⟨mapInsert_of_some h.RA, h.file.insert hfile hmapped, h.notCandidate⟩
    · cases he
      exact h
  | create reg grfOffset =>
    simp only [RegisterMaps.step] at he
    split_ifs at he with h1
    cases he
    exact h.insertNewReg (by simpa using (not_or.mp h1).2)
  | vectorReg reg grfOffset =>
    simp only [RegisterMaps.step] at he
    split_ifs at he with h1
    cases he
    exact h.insertNewReg (by simpa using (not_or.mp h1).2)
  | expire reg =>
    obtain ⟨⟨t, ret⟩, ht, rfl⟩ := Option.map_eq_some_iff.mp he
    obtain ⟨hRA, hmap, hcand⟩ := expireReg_maps ht
    exact h.of_maps hRA hmap hcand
  | spill reg isAllocated =>
    simp only [RegisterMaps.step] at he
    split_ifs at he with h1
    refine h.spillReg ?_ he
    intro hall
    simpa [hall] using h1

theorem foldlM_parted {actions : List Action} (h : Parted s)
    (he : actions.foldlM (step P) s = some s') : Parted s' := by
  induction actions generalizing s with
  | nil =>
    cases he
    exact h
  | cons a actions ih =>
    rw [List.foldlM_cons] at he
    obtain ⟨t, ht, hrest⟩ := Option.bind_eq_some_iff.mp he
    exact ih (h.step ht) hrest

/-- In every state from `allocateSpecialRegs` on, the two maps are different functions. -/
theorem maps_disagree (P : Input) (actions : List Action) (s : Opaque)
    (h : run P actions = some s) : ¬ Agree s :=
  (foldlM_parted (allocateSpecialRegs_parted P) h).not_agree

/-- A kernel of SIMD16 with the local identifiers in its payload. -/
def kernelInput : Input where
  simdWidth := 16
  regNum := 50
  family _ := .FAMILY_DWORD
  isScalarReg reg := 2 < reg && reg < specialRegNum
  isPayloadReg reg := reg < 3
  isPartialWrite _ := false
  flagBooleans _ := false
  isHole _ := false
  reservedReg := 4
  curbeRegs := [(0, 32), (1, 96), (2, 160)]
  pushMap := []
  simdWidth_eq := by decide
  barrierid_family := rfl
  barrierid_scalar := rfl
  barrierid_payload := rfl
  curbeRegs_payload := by decide
  pushMap_reg := by decide

/-- The group identifier is in the old map only. -/
theorem groupid_parted : (allocateSpecialRegs kernelInput).RA groupid0 = some 4 ∧
    (allocateSpecialRegs kernelInput).registerMap.lookup groupid0 = none ∧
    ¬ Agree (allocateSpecialRegs kernelInput) := by
  refine ⟨by decide, by decide, ?_⟩
  intro h
  exact absurd (congrFun h groupid0) (by decide)

/-- A run in which a register is allocated and then spilled. -/
def spillRun : List Action := [.create 41 256, .create 42 320, .spill 41 true]

theorem spillRun_isSome : (run kernelInput spillRun).isSome = true := by decide

theorem maps_disagree_spillRun : ¬ Agree ((run kernelInput spillRun).get spillRun_isSome) :=
  maps_disagree kernelInput spillRun _ (Option.some_get _).symm

end RegisterMaps

end Backend
