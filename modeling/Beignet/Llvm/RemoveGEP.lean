/-
`GenRemoveGEPPasss::simplifyGEPInstructions` and `getGEPConstOffset` (`llvm_passes.cpp`): addresses
of members and elements become additions.

The constant indices are added up in 32 bits, sign-extended at the end; a variable index is
multiplied or shifted in the width of a pointer.  Pointers are typed.  A variable index has the
width of a pointer, a constant one 32 bits or 64.

* `gepLoop_eq` — on a type that is laid out as in C, the loop computes the offset in C of every
  path;
* `good_of_tested` — where it computes all of them, the type is laid out as in C;
* **`simplifyGEP_sound_iff`** — the two together, for whole instructions.
-/
import Beignet.Llvm.TypeLayout

namespace Llvm

namespace RemoveGEP

open TypeLayout
open Layout (roundUp)

variable {w : ℕ}

/-! ### The pass -/

/-- An index of the instruction; `w` is the width of a pointer. -/
inductive Index (w : ℕ) where
  | const (c : ℤ)
  | var (v : BitVec w)

/-- `index` counts for a struct. -/
def getEltType (eltTy : Ty) (index : ℕ) : Option Ty :=
  match eltTy with
  | .pointer e | .array _ e => some e
  | .vector _ s => some (.scalar s)
  | .struct fields => fields[index]?
  | .scalar _ => none

/-- The loop over the members before the one at `TypeIndex`, and its padding. -/
def memberLoop (w : ℕ) (step offset : BitVec 32) : List Ty → ℕ → Option (BitVec 32)
  | [], _ => none
  | t :: _, 0 => do
    let padding ← getPadding offset (getAlignmentByte w t * step)
    return offset + padding
  | t :: ts, k + 1 => do
    let padding ← getPadding offset (getAlignmentByte w t * step)
    let elementSize ← getTypeByteSize w t
    memberLoop w step (offset + padding + elementSize * step) ts k

/-- The size of an element with its padding. -/
def paddedSize (w : ℕ) (e : Ty) : Option (BitVec 32) := do
  let size ← getTypeByteSize w e
  let padding ← getPadding size (getAlignmentByte w e)
  return size + padding

def getGEPConstOffset (w : ℕ) (eltTy : Ty) (TypeIndex : BitVec 32) : Option (BitVec 32) :=
  match eltTy with
  | .struct fields =>
    let step := if 0 < TypeIndex.toInt then 1 else -1
    memberLoop w step 0 fields TypeIndex.toNat
  | eltTy =>
    if TypeIndex ≠ 0 then do
      let elementType ← getEltType eltTy 0
      let elementSize ← paddedSize w elementType
      return elementSize * TypeIndex
    else some 0

/-- What is added for a variable index. -/
def varOffset (size : BitVec 32) (operand : BitVec w) : BitVec w :=
  if size ≠ 1 then
    if (size - 1) &&& size = 0 then operand <<< size.toNat.log2
    else operand * size.setWidth w
  else operand

/-- The loop over the operands. -/
def gepLoop : Ty → BitVec w → BitVec 32 → List (Index w) → Option (BitVec w × BitVec 32)
  | _, currentAddr, constantOffset, [] => some (currentAddr, constantOffset)
  | eltTy, currentAddr, constantOffset, .const c :: ops => do
    let TypeIndex := BitVec.ofInt 32 c
    let offset ← getGEPConstOffset w eltTy TypeIndex
    let elementType ← getEltType eltTy TypeIndex.toNat
    gepLoop elementType currentAddr (constantOffset + offset) ops
  | eltTy, currentAddr, constantOffset, .var v :: ops => do
    let elementType ← getEltType eltTy 0
    let size ← paddedSize w elementType
    gepLoop elementType (currentAddr + varOffset size v) constantOffset ops

/-- The address that the new instructions compute, from a pointer to `T`. -/
def simplifyGEPInstructions (T : Ty) (parentPointer : BitVec w) (ops : List (Index w)) :
    Option (BitVec w) := do
  let (currentAddr, constantOffset) ← gepLoop (.pointer T) parentPointer 0 ops
  return if constantOffset ≠ 0 then currentAddr + constantOffset.signExtend w else currentAddr

/-! ### The layout of C -/

/-- The member at an index, and where it starts. -/
def member (w : ℕ) (offset : ℕ) : List Ty → ℕ → Option (Ty × ℕ)
  | [], _ => none
  | t :: _, 0 => some (t, roundUp offset (alignOf w t))
  | t :: ts, k + 1 => member w (roundUp offset (alignOf w t) + cSize w t) ts k

/-- The element of an array or a vector. -/
def element : Ty → Option Ty
  | .array _ e => some e
  | .vector _ s => some (.scalar s)
  | _ => none

/-- One index in C: the part it leads to, and its offset as a constant and a variable part.  Fails
for an index that is not valid; that of a struct is a constant of 32 bits. -/
def cStep (t : Ty) : Index w → Option (Ty × ℤ × BitVec w)
  | .const c =>
    match t with
    | .struct fields =>
      if 0 ≤ c ∧ c < 2 ^ 31 then (member w 0 fields c.toNat).map fun (t, o) => (t, (o : ℤ), 0)
      else none
    | t => (element t).map fun e => (e, c * cSize w e, 0)
  | .var i => (element t).map fun e => (e, 0, i * BitVec.ofNat w (cSize w e))

/-- The offset in C of a list of indices. -/
def path : Ty → List (Index w) → Option (ℤ × BitVec w)
  | _, [] => some (0, 0)
  | t, i :: ops => do
    let (t, k, v) ← cStep t i
    let (k', v') ← path t ops
    return (k + k', v + v')

/-- A pointer to `T` is indexed as an array of `T`. -/
def ofPointer (T : Ty) : Ty := .array 1 T

/-- The sum of the constant indices is a number of 32 bits, unless pointers have no more. -/
def Fits (w : ℕ) (k : ℤ) : Prop := w ≤ 32 ∨ -2 ^ 31 ≤ k ∧ k < 2 ^ 31

/-- All addresses of parts of `T` are those of C. -/
def Sound (w : ℕ) (T : Ty) : Prop :=
  ∀ (base : BitVec w) (ops : List (Index w)) (k : ℤ) (v : BitVec w),
    path (ofPointer T) ops = some (k, v) → Fits w k →
      simplifyGEPInstructions T base ops = some (base + v + BitVec.ofInt w k)

/-! ### Types that are laid out as in C -/

section

variable (w : ℕ)

/-- The padded size is that of C and not 0. -/
structure Element (e : Ty) : Prop where
  pos : 0 < cSize w e
  eq : roundUp (used w e) (alignOf w e) = cSize w e

/-- The members start where they start in C; `u` and `c` are the ends before them, by the backend
and in C. -/
def Packed (u c : ℕ) : List Ty → Prop
  | [] => True
  | t :: ts => roundUp u (alignOf w t) = roundUp c (alignOf w t) ∧
    Packed (roundUp c (alignOf w t) + used w t) (roundUp c (alignOf w t) + cSize w t) ts

mutual

/-- At every depth, members and elements are where they are in C. -/
def Good : Ty → Prop
  | .scalar _ | .pointer _ | .vector _ _ => True
  | .array n e => Good e ∧ Element w e ∧ (n = 0 → alignOf w e ∣ used w e)
  | .struct fields => GoodFields fields ∧ Packed w 0 0 fields

def GoodFields : List Ty → Prop
  | [] => True
  | t :: ts => Good t ∧ 0 < alignOf w t ∧ GoodFields ts

end

end

mutual

/-- No empty arrays, and less than 2^31 members. -/
def Ordinary : Ty → Prop
  | .scalar _ | .pointer _ | .vector _ _ => True
  | .array n e => n ≠ 0 ∧ Ordinary e
  | .struct fields => OrdinaryFields fields ∧ fields.length < 2 ^ 31

def OrdinaryFields : List Ty → Prop
  | [] => True
  | t :: ts => Ordinary t ∧ OrdinaryFields ts

end

theorem Element.align_pos {e : Ty} (h : Element w e) : 0 < alignOf w e := by
  refine Nat.pos_of_ne_zero fun hzero => h.pos.ne ?_
  rw [← h.eq, hzero, roundUp_zero]

mutual

theorem Good.defined : ∀ {t : Ty}, Good w t → Defined w t
  | .scalar _, _ | .pointer _, _ | .vector _ _, _ => trivial
  | .array _ _, h => ⟨Good.defined h.1, h.2.1.align_pos, h.2.2⟩
  | .struct _, h => GoodFields.defined h.1

theorem GoodFields.defined : ∀ {ts : List Ty}, GoodFields w ts → DefinedFields w ts
  | [], _ => trivial
  | _ :: _, h => ⟨Good.defined h.1, h.2.1, GoodFields.defined h.2.2⟩

end

/-! ### One index -/

section

variable (hw : w < 2 ^ 31) (hbytes : 8 ∣ w)

include hw hbytes in
theorem paddedSize_eq {e : Ty} (h : WF w e) (hd : Defined w e) (ha : 0 < alignOf w e) :
    paddedSize w e = some (BitVec.ofNat 32 (roundUp (used w e) (alignOf w e))) := by
  have hsize := (used_le e hd).trans_lt (WF.cSize_lt hw e h)
  have halign := WF.alignOf_lt hw e h
  rw [paddedSize, getTypeByteSize_eq hw hbytes h hd, getAlignmentByte_eq hw e h]
  simp only [Option.bind_eq_bind, Option.bind_some, getPadding_ofNat (by omega : used w e < 2 ^ 31)
    ha (by omega), ← BitVec.ofNat_add, Nat.add_sub_cancel' (Layout.le_roundUp ha)]
  rfl

theorem getPadding_one {o a : ℕ} (ho : o < 2 ^ 28) (ha : 0 < a) (ha' : a < 2 ^ 28) :
    getPadding (BitVec.ofNat 32 o) (BitVec.ofNat 32 a * 1) =
      some (BitVec.ofNat 32 (roundUp o a - o)) := by
  rw [mul_one, getPadding_ofNat (by omega) ha (by omega)]

/-- The padding before the first member, with a negative step. -/
theorem getPadding_neg {a : ℕ} (ha : 0 < a) (ha' : a < 2 ^ 28) :
    getPadding 0 (BitVec.ofNat 32 a * -1) = some 0 := by
  have hne : BitVec.ofNat 32 a * -1 ≠ 0 := by
    rw [mul_neg_one, ne_eq, neg_eq_zero]
    intro hzero
    have hnat := congrArg BitVec.toNat hzero
    rw [BitVec.toNat_ofNat, Nat.mod_eq_of_lt (by omega)] at hnat
    exact ha.ne' hnat
  have hzero : (0 : BitVec 32).srem (BitVec.ofNat 32 a * -1) = 0 := BitVec.zero_srem
  rw [getPadding, if_neg hne, hzero, sub_zero]
  exact congrArg some BitVec.srem_self

theorem GoodFields.align_pos : ∀ {ts : List Ty}, GoodFields w ts → ∀ t ∈ ts, 0 < alignOf w t
  | _ :: _, h, _, ht =>
    (List.mem_cons.mp ht).elim (fun heq => heq ▸ h.2.1) (GoodFields.align_pos h.2.2 _)

theorem le_cEnd : ∀ (ts : List Ty) {c : ℕ}, (∀ t ∈ ts, 0 < alignOf w t) → c ≤ cEnd w c ts
  | [], _, _ => le_rfl
  | _ :: ts, _, h =>
    ((Layout.le_roundUp (h _ List.mem_cons_self)).trans (Nat.le_add_right _ _)).trans
      (le_cEnd ts fun t ht => h t (List.mem_cons_of_mem _ ht))

include hw hbytes in
theorem memberLoop_eq : ∀ (ts : List Ty) {u c k o : ℕ} {t : Ty}, WFs w ts → GoodFields w ts →
    Packed w u c ts → u ≤ c → cEnd w c ts < 2 ^ 28 → member w c ts k = some (t, o) →
    memberLoop w 1 (BitVec.ofNat 32 u) ts k = some (BitVec.ofNat 32 o)
  | [], _, _, _, _, _, _, _, _, _, _, h => by simp [member] at h
  | t :: ts, u, c, k, o, t', hwf, hgood, hpacked, hle, hend, h => by
    have hc := le_cEnd (t :: ts) (c := c) hgood.align_pos
    have ha := hgood.2.1
    have halign := WF.alignOf_lt hw t hwf.1
    have hstart : BitVec.ofNat 32 u + BitVec.ofNat 32 (roundUp u (alignOf w t) - u) =
        BitVec.ofNat 32 (roundUp c (alignOf w t)) := by
      rw [← BitVec.ofNat_add, Nat.add_sub_cancel' (Layout.le_roundUp ha), hpacked.1]
    cases k with
    | zero =>
      obtain ⟨rfl, rfl⟩ := Prod.mk.inj (Option.some_inj.mp h)
      rw [memberLoop, getAlignmentByte_eq hw t hwf.1, getPadding_one (by omega) ha halign]
      exact congrArg some hstart
    | succ k =>
      rw [memberLoop, getAlignmentByte_eq hw t hwf.1, getPadding_one (by omega) ha halign,
        getTypeByteSize_eq hw hbytes hwf.1 hgood.1.defined]
      simp only [Option.bind_eq_bind, Option.bind_some, hstart, mul_one, ← BitVec.ofNat_add]
      exact memberLoop_eq ts hwf.2 hgood.2.2 hpacked.2
        (Nat.add_le_add_left (used_le t hgood.1.defined) _) hend h

theorem member_get : ∀ (ts : List Ty) {c k o : ℕ} {t : Ty}, member w c ts k = some (t, o) →
    ts[k]? = some t
  | [], _, _, _, _, h => by simp [member] at h
  | _ :: _, _, 0, _, _, h => congrArg (Option.map Prod.fst) h
  | _ :: ts, _, _ + 1, _, _, h => member_get ts h

theorem WFs.of_mem : ∀ {ts : List Ty} {t : Ty}, WFs w ts → t ∈ ts → WF w t
  | _ :: _, _, h, ht => (List.mem_cons.mp ht).elim (fun heq => heq ▸ h.1) (WFs.of_mem h.2)

theorem GoodFields.of_mem : ∀ {ts : List Ty} {t : Ty}, GoodFields w ts → t ∈ ts → Good w t
  | _ :: _, _, h, ht => (List.mem_cons.mp ht).elim (fun heq => heq ▸ h.1) (GoodFields.of_mem h.2.2)

theorem toNat_ofInt {c : ℤ} (h : 0 ≤ c ∧ c < 2 ^ 31) : (BitVec.ofInt 32 c).toNat = c.toNat := by
  rw [BitVec.toNat_ofInt]
  omega

include hw hbytes in
theorem structOffset_eq {fields : List Ty} {c : ℤ} {t : Ty} {o : ℕ} (hwf : WF w (.struct fields))
    (hgood : Good w (.struct fields)) (hc : 0 ≤ c ∧ c < 2 ^ 31)
    (h : member w 0 fields c.toNat = some (t, o)) :
    getGEPConstOffset w (.struct fields) (BitVec.ofInt 32 c) = some (BitVec.ofNat 32 o) := by
  have hint : (BitVec.ofInt 32 c).toInt = c := by
    rw [BitVec.toInt_ofInt_eq_self (by decide) (by omega) (by omega)]
  rw [getGEPConstOffset, toNat_ofInt hc, hint]
  by_cases hpos : 0 < c
  · simp only [if_pos hpos]
    have hend : cEnd w 0 fields < 2 ^ 28 := by
      cases fields with
      | nil => exact Nat.two_pow_pos 28
      | cons t ts =>
        have hmax : 0 < maxAlignOf w (t :: ts) := hgood.1.2.1.trans_le (le_max_left _ _)
        exact (Layout.le_roundUp hmax).trans_lt hwf.2
    exact memberLoop_eq hw hbytes fields hwf.1 hgood.1 hgood.2 le_rfl hend h
  · have hzero : c.toNat = 0 := by omega
    simp only [if_neg hpos, hzero]
    rw [hzero] at h
    -- the loop with step -1 has no turn
    cases fields with
    | nil => simp [member] at h
    | cons t ts =>
      have ho : o = 0 := by
        rw [← (Prod.mk.inj (Option.some_inj.mp h)).2, roundUp_eq_self (dvd_zero _)]
      rw [memberLoop, getAlignmentByte_eq hw t hwf.1.1,
        getPadding_neg hgood.1.2.1 (WF.alignOf_lt hw t hwf.1.1), ho]
      rfl

theorem element_props {t e : Ty} (hwf : WF w t) (hgood : Good w t) (h : element t = some e) :
    WF w e ∧ Good w e ∧ Element w e := by
  cases t with
  | array n e' =>
    obtain rfl := Option.some_inj.mp h
    exact ⟨hwf.1, hgood.1, hgood.2.1⟩
  | vector n s =>
    obtain rfl := Option.some_inj.mp h
    have hn : 0 < elemNum n := by
      have := hwf.1
      unfold elemNum
      split_ifs <;> omega
    have hlt : s.bits w < 2 ^ 31 := (Nat.le_mul_of_pos_left _ hn).trans_lt hwf.2.2
    refine ⟨⟨hwf.2.1, hlt⟩, trivial, ⟨?_, roundUp_eq_self dvd_rfl⟩⟩
    exact Nat.div_pos (Nat.le_of_dvd hwf.2.1.1 hwf.2.1.2) (by decide)
  | scalar _ => cases h
  | pointer _ => cases h
  | struct _ => cases h

include hw hbytes in
theorem paddedSize_element {e : Ty} (hwf : WF w e) (hgood : Good w e) (he : Element w e) :
    paddedSize w e = some (BitVec.ofNat 32 (cSize w e)) := by
  rw [paddedSize_eq hw hbytes hwf hgood.defined he.align_pos, he.eq]

theorem getEltType_element {t e : Ty} (h : element t = some e) (k : ℕ) :
    getEltType t k = some e := by
  cases t <;> first | exact h | cases h

include hw hbytes in
theorem elementOffset_eq {t e : Ty} (hwf : WF w t) (hgood : Good w t) (h : element t = some e)
    (c : ℤ) : getGEPConstOffset w t (BitVec.ofInt 32 c) =
      some (BitVec.ofInt 32 (c * cSize w e)) := by
  obtain ⟨hwf', hgood', he⟩ := element_props hwf hgood h
  have hmul : BitVec.ofNat 32 (cSize w e) * BitVec.ofInt 32 c =
      BitVec.ofInt 32 (c * cSize w e) := by
    rw [BitVec.ofInt_mul, BitVec.ofInt_natCast, mul_comm]
  have hcase : getGEPConstOffset w t (BitVec.ofInt 32 c) =
      if BitVec.ofInt 32 c ≠ 0 then
        (getEltType t 0).bind fun e => (paddedSize w e).bind fun size =>
          some (size * BitVec.ofInt 32 c)
      else some 0 := by
    cases t <;> first | rfl | cases h
  rw [hcase, getEltType_element h, Option.bind_some, paddedSize_element hw hbytes hwf' hgood' he,
    Option.bind_some, hmul]
  split_ifs with h0
  · rfl
  · rw [← hmul, not_not.mp h0, mul_zero]

theorem varOffset_eq {n : ℕ} (hpos : 0 < n) (hn : n < 2 ^ 28) (v : BitVec w) :
    varOffset (BitVec.ofNat 32 n) v = v * BitVec.ofNat w n := by
  have hnat : (BitVec.ofNat 32 n).toNat = n := by
    rw [BitVec.toNat_ofNat, Nat.mod_eq_of_lt (by omega)]
  have hone : BitVec.ofNat 32 n = 1 ↔ n = 1 := by
    rw [BitVec.toNat_eq, hnat]
    rfl
  have hpow : (BitVec.ofNat 32 n - 1) &&& BitVec.ofNat 32 n = 0 ↔ n.isPowerOfTwo := by
    have hpred : BitVec.ofNat 32 n - 1 = BitVec.ofNat 32 (n - 1) :=
      BitVec.ofNat_sub_ofNat_of_le _ 1 (by decide) hpos
    have hle : (n - 1) &&& n < 2 ^ 32 := Nat.and_le_right.trans_lt (by omega)
    rw [hpred, ← BitVec.ofNat_and, BitVec.toNat_eq, BitVec.toNat_ofNat, Nat.mod_eq_of_lt hle,
      Nat.and_comm]
    exact Nat.and_sub_one_eq_zero_iff_isPowerOfTwo hpos.ne'
  have hwidth : (BitVec.ofNat 32 n).setWidth w = BitVec.ofNat w n := by
    refine BitVec.eq_of_toNat_eq ?_
    rw [BitVec.toNat_setWidth, hnat, BitVec.toNat_ofNat]
  rw [varOffset, hnat, hwidth]
  split_ifs with h1 h2
  · obtain ⟨j, rfl⟩ := hpow.mp h2
    rw [Nat.log2_two_pow, BitVec.shiftLeft_eq_mul_twoPow]
    refine congrArg (v * ·) (BitVec.eq_of_toNat_eq ?_)
    rw [BitVec.toNat_twoPow, BitVec.toNat_ofNat]
  · rfl
  · rw [hone.mp (not_not.mp h1)]
    exact (mul_one v).symm

theorem cStep_const {t : Ty} {c k : ℤ} {v : BitVec w} {t' : Ty}
    (h : cStep t (.const c) = some (t', k, v)) :
    v = 0 ∧ ((∃ fields o, t = .struct fields ∧ (0 ≤ c ∧ c < 2 ^ 31) ∧
      member w 0 fields c.toNat = some (t', o) ∧ k = o) ∨
      (element t = some t' ∧ k = c * cSize w t')) := by
  have helement : (element t).map (fun e => (e, c * (cSize w e : ℤ), (0 : BitVec w))) =
      some (t', k, v) → v = 0 ∧ element t = some t' ∧ k = c * cSize w t' := by
    intro h
    obtain ⟨e, he, heq⟩ := Option.map_eq_some_iff.mp h
    obtain ⟨rfl, rfl, rfl⟩ := heq
    exact ⟨rfl, he, rfl⟩
  cases t with
  | struct fields =>
    rw [cStep] at h
    split_ifs at h with hc
    obtain ⟨⟨t, o⟩, hmember, heq⟩ := Option.map_eq_some_iff.mp h
    obtain ⟨rfl, rfl, rfl⟩ := heq
    exact ⟨rfl, .inl ⟨fields, o, rfl, hc, hmember, rfl⟩⟩
  | scalar s => exact ⟨(helement h).1, .inr (helement h).2⟩
  | pointer e => exact ⟨(helement h).1, .inr (helement h).2⟩
  | vector n s => exact ⟨(helement h).1, .inr (helement h).2⟩
  | array n e => exact ⟨(helement h).1, .inr (helement h).2⟩

include hw hbytes in
theorem gepLoop_step {t t' : Ty} {i : Index w} {k : ℤ} {v : BitVec w}
    (hwf : WF w t) (hgood : Good w t) (h : cStep t i = some (t', k, v)) :
    (WF w t' ∧ Good w t') ∧ ∀ cur off ops, gepLoop t cur off (i :: ops) =
      gepLoop t' (cur + v) (off + BitVec.ofInt 32 k) ops := by
  cases i with
  | const c =>
    obtain ⟨rfl, ⟨fields, o, rfl, hc, hmember, rfl⟩ | ⟨he, rfl⟩⟩ := cStep_const h
    · have hget := member_get fields hmember
      have hmem := List.mem_of_getElem? hget
      refine ⟨⟨WFs.of_mem hwf.1 hmem, GoodFields.of_mem hgood.1 hmem⟩, fun cur off ops => ?_⟩
      have hget' : getEltType (.struct fields) (BitVec.ofInt 32 c).toNat = some t' := by
        rw [toNat_ofInt hc]
        exact hget
      rw [gepLoop, structOffset_eq hw hbytes hwf hgood hc hmember, hget', add_zero,
        BitVec.ofInt_natCast]
      rfl
    · obtain ⟨hwf', hgood', -⟩ := element_props hwf hgood he
      refine ⟨⟨hwf', hgood'⟩, fun cur off ops => ?_⟩
      rw [gepLoop, elementOffset_eq hw hbytes hwf hgood he, getEltType_element he, add_zero]
      rfl
  | var i =>
    obtain ⟨e, he, heq⟩ := Option.map_eq_some_iff.mp h
    obtain ⟨rfl, rfl, rfl⟩ := heq
    obtain ⟨hwf', hgood', hel⟩ := element_props hwf hgood he
    refine ⟨⟨hwf', hgood'⟩, fun cur off ops => ?_⟩
    rw [gepLoop, getEltType_element he]
    simp only [Option.bind_eq_bind, Option.bind_some, paddedSize_element hw hbytes hwf' hgood' hel,
      varOffset_eq hel.pos (WF.cSize_lt hw t' hwf')]
    exact congrArg (gepLoop t' _ · ops) (add_zero off).symm

include hw hbytes in
theorem gepLoop_eq (ops : List (Index w)) : ∀ {t : Ty} {k : ℤ} {v : BitVec w},
    WF w t → Good w t → path t ops = some (k, v) → ∀ cur off,
      gepLoop t cur off ops = some (cur + v, off + BitVec.ofInt 32 k) := by
  induction ops with
  | nil =>
    intro t k v _ _ h cur off
    obtain ⟨rfl, rfl⟩ := Prod.mk.inj (Option.some_inj.mp h)
    rw [gepLoop, add_zero]
    exact congrArg (fun x => some (cur, x)) (add_zero off).symm
  | cons i ops ih =>
    intro t k v hwf hgood h cur off
    rw [path, Option.bind_eq_bind, Option.bind_eq_some_iff] at h
    obtain ⟨⟨t', k1, v1⟩, hstep, h⟩ := h
    obtain ⟨⟨k2, v2⟩, hrest, h⟩ := Option.bind_eq_some_iff.mp h
    obtain ⟨rfl, rfl⟩ := Prod.mk.inj (Option.some_inj.mp h)
    obtain ⟨⟨hwf', hgood'⟩, hloop⟩ := gepLoop_step hw hbytes hwf hgood hstep
    rw [hloop, ih hwf' hgood' hrest, BitVec.ofInt_add, add_assoc, add_assoc]

/-- A pointer goes like an array. -/
theorem gepLoop_pointer (T : Ty) (cur : BitVec w) (off : BitVec 32) (ops : List (Index w)) :
    gepLoop (.pointer T) cur off ops = gepLoop (ofPointer T) cur off ops := by
  cases ops with
  | nil => rfl
  | cons i ops => cases i <;> rfl

/-- The sign-extended sum is the sum. -/
theorem signExtend_ofInt (hw' : 32 ≤ w) {k : ℤ} (h : Fits w k) :
    (BitVec.ofInt 32 k).signExtend w = BitVec.ofInt w k := by
  rcases h with hle | ⟨hlo, hhi⟩
  · obtain rfl := le_antisymm hle hw'
    exact BitVec.signExtend_eq _
  · rw [BitVec.signExtend, BitVec.toInt_ofInt_eq_self (by decide) (by omega) (by omega)]

theorem simplify_eq (T : Ty) (base : BitVec w) (ops : List (Index w)) :
    simplifyGEPInstructions T base ops =
      (gepLoop (ofPointer T) base 0 ops).map fun r => r.1 + r.2.signExtend w := by
  rw [simplifyGEPInstructions, gepLoop_pointer]
  cases gepLoop (ofPointer T) base 0 ops with
  | none => rfl
  | some r =>
    obtain ⟨cur, off⟩ := r
    refine congrArg some ?_
    show (if off ≠ 0 then cur + off.signExtend w else cur) = cur + off.signExtend w
    by_cases h : off = 0
    · have hzero : (0 : BitVec 32).signExtend w = 0 := by
        rw [BitVec.signExtend]
        exact congrArg (BitVec.ofInt w) BitVec.toInt_zero
      rw [if_neg (not_not.mpr h), h, hzero, add_zero]
    · rw [if_pos h]

include hw in
theorem wf_ofPointer {T : Ty} (hwf : WF w T) : WF w (ofPointer T) :=
  ⟨hwf, by rw [Nat.one_mul]; exact WF.cSize_lt hw T hwf⟩

include hw hbytes in
theorem sound_of_good (hw' : 32 ≤ w) {T : Ty} (hwf : WF w T) (hgood : Good w (ofPointer T)) :
    Sound w T := by
  intro base ops k v hpath hfits
  have hloop := gepLoop_eq hw hbytes ops (wf_ofPointer hw hwf) hgood hpath base 0
  rw [zero_add] at hloop
  rw [simplify_eq, hloop, Option.map_some, signExtend_ofInt hw' hfits]

/-! ### Types on which the addresses are those of C -/

theorem align_ne_zero {o a x : BitVec 32} (h : getPadding o a = some x) : a ≠ 0 := by
  rintro rfl
  exact Option.some_ne_none x h.symm

include hw in
theorem alignOf_pos_of_padding {t : Ty} {o x step : BitVec 32} (hwf : WF w t)
    (h : getPadding o (step * getAlignmentByte w t) = some x) : 0 < alignOf w t := by
  refine Nat.pos_of_ne_zero fun hzero => align_ne_zero h ?_
  rw [getAlignmentByte_eq hw t hwf, hzero]
  exact mul_zero step

include hw in
mutual

/-- A size that could be computed. -/
theorem defined_of_size : ∀ {t : Ty} {x : BitVec 32}, WF w t → Ordinary t →
    getTypeBitSize w t = some x → Defined w t
  | .scalar _, _, _, _, _ | .pointer _, _, _, _, _ | .vector _ _, _, _, _, _ => trivial
  | .array n e, x, hwf, hord, h => by
    rw [getTypeBitSize] at h
    obtain ⟨size, hsize, h⟩ := Option.bind_eq_some_iff.mp h
    obtain ⟨padding, hpadding, -⟩ := Option.bind_eq_some_iff.mp h
    exact ⟨defined_of_size hwf.1 hord.2 hsize, alignOf_pos_of_padding hw hwf.1 hpadding,
      fun hn => absurd hn hord.1⟩
  | .struct fields, x, hwf, hord, h => definedFields_of_size hwf.1 hord.1 h

theorem definedFields_of_size : ∀ {ts : List Ty} {o x : BitVec 32}, WFs w ts → OrdinaryFields ts →
    fieldsBitSize w o ts = some x → DefinedFields w ts
  | [], _, _, _, _, _ => trivial
  | t :: ts, o, x, hwf, hord, h => by
    rw [fieldsBitSize] at h
    obtain ⟨padding, hpadding, h⟩ := Option.bind_eq_some_iff.mp h
    obtain ⟨size, hsize, h⟩ := Option.bind_eq_some_iff.mp h
    exact ⟨defined_of_size hwf.1 hord.1 hsize, alignOf_pos_of_padding hw hwf.1 hpadding,
      definedFields_of_size hwf.2 hord.2 h⟩

end

include hw in
theorem defined_of_byteSize {t : Ty} {x : BitVec 32} (hwf : WF w t) (hord : Ordinary t)
    (h : getTypeByteSize w t = some x) : Defined w t := by
  rw [getTypeByteSize] at h
  obtain ⟨size, hsize, -⟩ := Option.bind_eq_some_iff.mp h
  exact defined_of_size hw hwf hord hsize

/-! ### Members -/

include hw in
theorem align_pos_of_loop {step : BitVec 32} : ∀ (ts : List Ty) {o x : BitVec 32} {k : ℕ} {t : Ty},
    WFs w ts → ts[k]? = some t → memberLoop w step o ts k = some x → 0 < alignOf w t
  | [], _, _, _, _, _, ht, _ => by simp at ht
  | t :: ts, o, x, 0, t', hwf, ht, h => by
    obtain rfl := Option.some_inj.mp ht
    rw [memberLoop] at h
    obtain ⟨padding, hpadding, -⟩ := Option.bind_eq_some_iff.mp h
    rw [mul_comm] at hpadding
    exact alignOf_pos_of_padding hw hwf.1 hpadding
  | t :: ts, o, x, k + 1, t', hwf, ht, h => by
    rw [memberLoop] at h
    obtain ⟨padding, -, h⟩ := Option.bind_eq_some_iff.mp h
    obtain ⟨size, -, h⟩ := Option.bind_eq_some_iff.mp h
    exact align_pos_of_loop ts hwf.2 ht h

theorem member_le : ∀ (ts : List Ty) {c k o : ℕ} {t : Ty}, (∀ t ∈ ts, 0 < alignOf w t) →
    member w c ts k = some (t, o) → o + cSize w t ≤ cEnd w c ts
  | [], _, _, _, _, _, h => by simp [member] at h
  | t :: ts, c, 0, o, t', ha, h => by
    obtain ⟨rfl, rfl⟩ := Prod.mk.inj (Option.some_inj.mp h)
    exact le_cEnd ts fun t ht => ha t (List.mem_cons_of_mem _ ht)
  | t :: ts, c, k + 1, o, t', ha, h =>
    member_le ts (fun t ht => ha t (List.mem_cons_of_mem _ ht)) h

theorem le_member : ∀ (ts : List Ty) {c k o : ℕ} {t : Ty}, (∀ t ∈ ts, 0 < alignOf w t) →
    member w c ts k = some (t, o) → c ≤ o
  | [], _, _, _, _, _, h => by simp [member] at h
  | t :: ts, c, 0, o, t', ha, h => by
    obtain ⟨rfl, rfl⟩ := Prod.mk.inj (Option.some_inj.mp h)
    exact Layout.le_roundUp (ha t List.mem_cons_self)
  | t :: ts, c, k + 1, o, t', ha, h =>
    ((Layout.le_roundUp (ha t List.mem_cons_self)).trans (Nat.le_add_right _ _)).trans
      (le_member ts (fun t ht => ha t (List.mem_cons_of_mem _ ht)) h)

theorem member_start : ∀ (ts : List Ty) {c k o : ℕ} {t : Ty}, member w c ts k = some (t, o) →
    ∃ c, o = roundUp c (alignOf w t)
  | [], _, _, _, _, h => by simp [member] at h
  | _ :: _, c, 0, _, _, h => by
    obtain ⟨rfl, rfl⟩ := Prod.mk.inj (Option.some_inj.mp h)
    exact ⟨c, rfl⟩
  | _ :: ts, _, _ + 1, _, _, h => member_start ts h

theorem member_isSome : ∀ (ts : List Ty) (c : ℕ) {k : ℕ}, k < ts.length →
    ∃ t o, member w c ts k = some (t, o)
  | [], _, _, hk => absurd hk (Nat.not_lt_zero _)
  | t :: _, _, 0, _ => ⟨t, _, rfl⟩
  | _ :: ts, _, _ + 1, hk => member_isSome ts _ (Nat.lt_of_succ_lt_succ hk)

theorem ofNat_inj {a b : ℕ} (ha : a < 2 ^ 32) (hb : b < 2 ^ 32)
    (h : BitVec.ofNat 32 a = BitVec.ofNat 32 b) : a = b := by
  have hnat := congrArg BitVec.toNat h
  rwa [BitVec.toNat_ofNat, BitVec.toNat_ofNat, Nat.mod_eq_of_lt ha, Nat.mod_eq_of_lt hb] at hnat

include hw hbytes in
/-- Members that are found where they are in C. -/
theorem packed_of_loop : ∀ (ts : List Ty) {u c : ℕ}, WFs w ts → OrdinaryFields ts →
    (∀ t ∈ ts, 0 < alignOf w t) → u ≤ c → cEnd w c ts < 2 ^ 28 →
    (∀ k t o, member w c ts k = some (t, o) →
      memberLoop w 1 (BitVec.ofNat 32 u) ts k = some (BitVec.ofNat 32 o)) → Packed w u c ts
  | [], _, _, _, _, _, _, _, _ => trivial
  | t :: ts, u, c, hwf, hord, ha, hle, hend, h => by
    have hpos := ha t List.mem_cons_self
    have hrest : ∀ t ∈ ts, 0 < alignOf w t := fun t ht => ha t (List.mem_cons_of_mem _ ht)
    have halign := WF.alignOf_lt hw t hwf.1
    have hstart : roundUp c (alignOf w t) + cSize w t ≤ cEnd w c (t :: ts) := le_cEnd ts hrest
    have hc := Layout.le_roundUp (a := c) hpos
    have hround := Layout.roundUp_lt (a := u) hpos
    have hpadding : getPadding (BitVec.ofNat 32 u) (getAlignmentByte w t * 1) =
        some (BitVec.ofNat 32 (roundUp u (alignOf w t) - u)) := by
      rw [getAlignmentByte_eq hw t hwf.1, getPadding_one (by omega) hpos halign]
    have hsum : BitVec.ofNat 32 u + BitVec.ofNat 32 (roundUp u (alignOf w t) - u) =
        BitVec.ofNat 32 (roundUp u (alignOf w t)) := by
      rw [← BitVec.ofNat_add, Nat.add_sub_cancel' (Layout.le_roundUp hpos)]
    have hfirst := h 0 t _ rfl
    rw [memberLoop, hpadding] at hfirst
    have heq : roundUp u (alignOf w t) = roundUp c (alignOf w t) :=
      ofNat_inj (by omega) (by omega) (hsum.symm.trans (Option.some_inj.mp hfirst))
    refine ⟨heq, ?_⟩
    cases ts with
    | nil => trivial
    | cons t2 ts =>
      have hnext := h 1 t2 _ rfl
      rw [memberLoop] at hnext
      obtain ⟨_, -, hnext⟩ := Option.bind_eq_some_iff.mp hnext
      obtain ⟨size, hsize, -⟩ := Option.bind_eq_some_iff.mp hnext
      have hdef := defined_of_byteSize hw hwf.1 hord.1 hsize
      refine packed_of_loop (t2 :: ts) hwf.2 hord.2 hrest
        (Nat.add_le_add_left (used_le t hdef) _) hend fun k t' o hk => ?_
      have hloop := h (k + 1) t' o hk
      rw [memberLoop, hpadding, getTypeByteSize_eq hw hbytes hwf.1 hdef] at hloop
      simp only [Option.bind_eq_bind, Option.bind_some, hsum] at hloop
      rwa [mul_one, heq, ← BitVec.ofNat_add] at hloop

/-! ### From the addresses to the type -/

/-- The addresses of parts of `t`, which starts at `p`, are those of C. -/
def Tested (t : Ty) (p : ℕ) : Prop :=
  ∀ (ops : List (Index w)) (k : ℤ) (v : BitVec w), path t ops = some (k, v) → Fits w (p + k) →
    ∃ r, gepLoop t 0 (BitVec.ofNat 32 p) ops = some r ∧
      r.1 + r.2.signExtend w = v + BitVec.ofInt w (p + k)

theorem tested_of_sound {T : Ty} (h : Sound w T) : Tested (w := w) (ofPointer T) 0 := by
  intro ops k v hpath hfits
  have hsound := h 0 ops k v hpath (by simpa using hfits)
  rw [simplify_eq, Option.map_eq_some_iff] at hsound
  obtain ⟨r, hr, heq⟩ := hsound
  refine ⟨r, hr, ?_⟩
  rw [heq, zero_add, Nat.cast_zero, zero_add]

theorem eq_of_signExtend (hw' : 32 ≤ w) {x y : BitVec 32} (h : x.signExtend w = y.signExtend w) :
    x = y := by
  have hint := congrArg BitVec.toInt h
  rwa [BitVec.toInt_signExtend_of_le hw', BitVec.toInt_signExtend_of_le hw', BitVec.toInt_inj]
    at hint

theorem fits_of_lt {k : ℕ} (h : k < 2 ^ 31) : Fits w k := .inr (by omega)

/-- Of a single constant index. -/
theorem Tested.const (hw' : 32 ≤ w) {t t' : Ty} {p o : ℕ} {c : ℤ} (h : Tested (w := w) t p)
    (hstep : cStep (w := w) t (.const c) = some (t', (o : ℤ), 0)) (hlt : p + o < 2 ^ 31) :
    getGEPConstOffset w t (BitVec.ofInt 32 c) = some (BitVec.ofNat 32 o) := by
  have hpath : path (w := w) t [.const c] = some ((o : ℤ), 0) := by
    rw [path, hstep]
    simp only [Option.bind_eq_bind, Option.bind_some, path, add_zero]
    rfl
  obtain ⟨r, hloop, heq⟩ := h _ _ _ hpath (by exact_mod_cast fits_of_lt hlt)
  rw [gepLoop] at hloop
  obtain ⟨offset, hoffset, hloop⟩ := Option.bind_eq_some_iff.mp hloop
  obtain ⟨elementType, -, hloop⟩ := Option.bind_eq_some_iff.mp hloop
  obtain rfl := Option.some_inj.mp hloop
  rw [hoffset]
  -- both sums are the same number of 32 bits
  have hsum : BitVec.ofNat 32 p + offset = BitVec.ofNat 32 (p + o) := by
    refine eq_of_signExtend hw' ?_
    have hcast : (p : ℤ) + o = ((p + o : ℕ) : ℤ) := (Nat.cast_add p o).symm
    rw [zero_add, zero_add, hcast, ← signExtend_ofInt hw' (fits_of_lt hlt)] at heq
    rw [heq, BitVec.ofInt_natCast]
  rw [BitVec.ofNat_add] at hsum
  exact congrArg some (add_left_cancel hsum)

/-- Of the parts of a part. -/
theorem Tested.part {t t' : Ty} {p o : ℕ} {c : ℤ} (h : Tested (w := w) t p)
    (hstep : cStep (w := w) t (.const c) = some (t', (o : ℤ), 0))
    (hoffset : getGEPConstOffset w t (BitVec.ofInt 32 c) = some (BitVec.ofNat 32 o))
    (helt : getEltType t (BitVec.ofInt 32 c).toNat = some t') : Tested (w := w) t' (p + o) := by
  intro ops k v hpath hfits
  have hpath' : path (w := w) t (.const c :: ops) = some (o + k, v) := by
    rw [path, hstep]
    simp only [Option.bind_eq_bind, Option.bind_some, hpath, zero_add]
    rfl
  have hassoc : ((p + o : ℕ) : ℤ) + k = p + (o + k) := by
    rw [Nat.cast_add, add_assoc]
  rw [hassoc] at hfits ⊢
  obtain ⟨r, hloop, heq⟩ := h _ _ _ hpath' hfits
  refine ⟨r, ?_, heq⟩
  rw [gepLoop, hoffset, helt] at hloop
  rwa [BitVec.ofNat_add]

include hw hbytes in
/-- Of an array that is not empty. -/
theorem Tested.element (hw' : 32 ≤ w) {n : ℕ} {e : Ty} {p : ℕ} (hwf : WF w (.array n e))
    (hord : Ordinary (.array n e)) (hp : p + cSize w e < 2 ^ 28)
    (h : Tested (w := w) (.array n e) p) : Element w e ∧ Tested (w := w) e p := by
  have hstep (c : ℕ) : cStep (w := w) (.array n e) (.const c) =
      some (e, ((c * cSize w e : ℕ) : ℤ), 0) := by
    rw [Nat.cast_mul]
    rfl
  have hone := h.const hw' (hstep 1) (by omega)
  have hpart := h.part (hstep 0) (by rw [Nat.zero_mul]; rfl) rfl
  rw [Nat.zero_mul, Nat.add_zero] at hpart
  obtain ⟨size, hsize, hone⟩ := Option.bind_eq_some_iff.mp hone
  have hvalue : size * 1 = BitVec.ofNat 32 (1 * cSize w e) := Option.some_inj.mp hone
  rw [mul_one, Nat.one_mul] at hvalue
  rw [hvalue] at hsize
  -- the size could be computed
  have hsize' := hsize
  rw [paddedSize] at hsize'
  obtain ⟨byteSize, hbyte, hsize'⟩ := Option.bind_eq_some_iff.mp hsize'
  obtain ⟨padding, hpadding, -⟩ := Option.bind_eq_some_iff.mp hsize'
  have hdef := defined_of_byteSize hw hwf.1 hord.2 hbyte
  have ha : 0 < alignOf w e := by
    rw [← one_mul (getAlignmentByte w e)] at hpadding
    exact alignOf_pos_of_padding hw hwf.1 hpadding
  have hle := Layout.roundUp_le_of_dvd ha (used_le e hdef) (alignOf_dvd_cSize e)
  have heq : roundUp (used w e) (alignOf w e) = cSize w e := by
    rw [paddedSize_eq hw hbytes hwf.1 hdef ha] at hsize
    exact ofNat_inj (by omega) (by omega) (Option.some_inj.mp hsize)
  refine ⟨⟨Nat.pos_of_ne_zero fun hzero => ?_, heq⟩, hpart⟩
  -- a variable index of 1 would move an element of size 0
  have hpath : path (w := w) (.array n e) [.var 1] = some (0, 0) := by
    rw [path, cStep, RemoveGEP.element, Option.map_some, hzero]
    simp only [Option.bind_eq_bind, Option.bind_some, path, add_zero]
    exact congrArg (fun v => some ((0 : ℤ), v)) (mul_zero (1 : BitVec w))
  obtain ⟨r, hloop, hr⟩ := h _ _ _ hpath (by
    rw [add_zero]
    exact fits_of_lt (by omega))
  have hloop' : gepLoop (.array n e) 0 (BitVec.ofNat 32 p) [.var (1 : BitVec w)] =
      some (0 + varOffset (BitVec.ofNat 32 (cSize w e)) 1, BitVec.ofNat 32 p) := by
    rw [gepLoop, getEltType, Option.bind_eq_bind, Option.bind_some, hsize]
    rfl
  obtain rfl := Option.some_inj.mp (hloop'.symm.trans hloop)
  have hmoved : varOffset (BitVec.ofNat 32 0) (1 : BitVec w) = 1 := by
    rw [varOffset, if_pos (by decide), if_pos (by decide)]
    exact BitVec.shiftLeft_zero 1
  rw [hzero, hmoved, add_zero, zero_add, zero_add, ← signExtend_ofInt hw' (fits_of_lt (by omega)),
    BitVec.ofInt_natCast] at hr
  have hnat := congrArg BitVec.toNat (add_eq_right.mp hr)
  have hone' : (1 : BitVec w).toNat = 1 := BitVec.toNat_one (by omega)
  rw [hone'] at hnat
  cases hnat

theorem exists_member {ts : List Ty} {t : Ty} (ht : t ∈ ts) :
    ∃ k o, member w 0 ts k = some (t, o) := by
  obtain ⟨k, hk⟩ := List.mem_iff_getElem?.mp ht
  obtain ⟨t', o, hmember⟩ := member_isSome ts 0 (List.getElem?_eq_some_iff.mp hk).1 (w := w)
  obtain rfl : t' = t := Option.some_inj.mp ((member_get ts hmember).symm.trans hk)
  exact ⟨k, o, hmember⟩

theorem alignOf_le_max : ∀ {ts : List Ty} {t : Ty}, t ∈ ts → alignOf w t ≤ maxAlignOf w ts
  | _ :: _, _, ht => (List.mem_cons.mp ht).elim (fun heq => heq ▸ le_max_left _ _)
      fun ht => (alignOf_le_max ht).trans (le_max_right _ _)

section

variable {fields : List Ty} (hord : Ordinary (.struct fields))

include hord

/-- The index of a member. -/
theorem index_lt {k o : ℕ} {t : Ty} (hk : member w 0 fields k = some (t, o)) :
    (0 : ℤ) ≤ k ∧ (k : ℤ) < 2 ^ 31 := by
  have hlt := (List.getElem?_eq_some_iff.mp (member_get fields hk)).1
  have hlen := hord.2
  omega

theorem cStep_member {k o : ℕ} {t : Ty} (hk : member w 0 fields k = some (t, o)) :
    cStep (w := w) (.struct fields) (.const (k : ℤ)) = some (t, (o : ℤ), 0) := by
  rw [cStep, if_pos (index_lt hord hk), Int.toNat_natCast, hk]
  rfl

theorem toNat_index {k o : ℕ} {t : Ty} (hk : member w 0 fields k = some (t, o)) :
    (BitVec.ofInt 32 (k : ℤ)).toNat = k := by
  rw [toNat_ofInt (index_lt hord hk), Int.toNat_natCast]

include hw in
/-- The members of a struct have an alignment. -/
theorem Tested.align_pos (hw' : 32 ≤ w) {p : ℕ} (hwf : WF w (.struct fields))
    (hp : p < 2 ^ 28) (h : Tested (w := w) (.struct fields) p) : ∀ t ∈ fields, 0 < alignOf w t := by
  intro t ht
  obtain ⟨k, o, hk⟩ := exists_member ht (w := w)
  by_contra hzero
  have ho : o = 0 := by
    obtain ⟨c, rfl⟩ := member_start fields hk
    rw [Nat.eq_zero_of_not_pos hzero, roundUp_zero]
  have hconst := h.const hw' (cStep_member hord hk) (by omega)
  rw [getGEPConstOffset, toNat_index hord hk] at hconst
  exact hzero (align_pos_of_loop hw fields hwf.1 (member_get fields hk) hconst)

include hw hbytes in
/-- The members of a struct are where they are in C. -/
theorem packed_of_tested {p : ℕ} (hwf : WF w (.struct fields))
    (ha : ∀ t ∈ fields, 0 < alignOf w t) (hp : p + cSize w (.struct fields) < 2 ^ 28)
    (hconst : ∀ {k o : ℕ} {t : Ty}, member w 0 fields k = some (t, o) →
      getGEPConstOffset w (.struct fields) (BitVec.ofInt 32 k) = some (BitVec.ofNat 32 o)) :
    Packed w 0 0 fields := by
  cases fields with
  | nil => trivial
  | cons t ts =>
    have hpos := ha t List.mem_cons_self
    have hend : cEnd w 0 (t :: ts) ≤ cSize w (.struct (t :: ts)) :=
      Layout.le_roundUp (hpos.trans_le (le_max_left _ _))
    refine packed_of_loop hw hbytes (t :: ts) hwf.1 hord.1 ha le_rfl (by omega) fun k t' o hk => ?_
    cases k with
    | zero =>
      -- the step was -1, but the first member starts at 0 with either
      obtain ⟨rfl, rfl⟩ := Prod.mk.inj (Option.some_inj.mp hk)
      rw [memberLoop, getAlignmentByte_eq hw t hwf.1.1,
        getPadding_one (by omega) hpos (WF.alignOf_lt hw t hwf.1.1), roundUp_eq_self (dvd_zero _)]
      rfl
    | succ k =>
      have hloop := hconst hk
      have hint : (BitVec.ofInt 32 ((k + 1 : ℕ) : ℤ)).toInt = ((k + 1 : ℕ) : ℤ) := by
        have := index_lt hord hk
        rw [BitVec.toInt_ofInt_eq_self (by decide) (by omega) (by omega)]
      rw [getGEPConstOffset, toNat_index hord hk, hint] at hloop
      rwa [if_pos (by omega)] at hloop

end

end

mutual

/-- Where all addresses are right, the type is laid out as in C. -/
theorem good_of_tested (hw : w < 2 ^ 31) (hbytes : 8 ∣ w) (hw' : 32 ≤ w) : ∀ {t : Ty} {p : ℕ},
    WF w t → Ordinary t → p + cSize w t < 2 ^ 28 → Tested (w := w) t p → Good w t
  | .scalar _, _, _, _, _, _ | .pointer _, _, _, _, _, _ | .vector _ _, _, _, _, _, _ => trivial
  | .array n e, p, hwf, hord, hp, h => by
    have hle : cSize w e ≤ n * cSize w e := Nat.le_mul_of_pos_left _ (Nat.pos_of_ne_zero hord.1)
    have hp' : p + cSize w e < 2 ^ 28 := (Nat.add_le_add_left hle p).trans_lt hp
    obtain ⟨helement, htested⟩ := h.element hw hbytes hw' hwf hord hp'
    exact ⟨good_of_tested hw hbytes hw' hwf.1 hord.2 hp' htested, helement,
      fun hn => absurd hn hord.1⟩
  | .struct fields, p, hwf, hord, hp, h => by
    have ha := h.align_pos hw hord hw' hwf (by omega)
    have hend {k o : ℕ} {t : Ty} (hk : member w 0 fields k = some (t, o)) :
        o + cSize w t ≤ cSize w (.struct fields) := by
      have ht := List.mem_of_getElem? (member_get fields hk)
      exact (member_le fields ha hk).trans
        (Layout.le_roundUp ((ha t ht).trans_le (alignOf_le_max ht)))
    have hconst {k o : ℕ} {t : Ty} (hk : member w 0 fields k = some (t, o)) :=
      h.const hw' (cStep_member hord hk) (by have := hend hk; omega)
    have hpacked := packed_of_tested hw hbytes hord hwf ha hp hconst
    refine ⟨goodFields_of_tested hw hbytes hw' hwf.1 hord.1 fun t ht => ⟨ha t ht, ?_⟩, hpacked⟩
    obtain ⟨k, o, hk⟩ := exists_member ht (w := w)
    have hle := hend hk
    refine ⟨p + o, by omega, h.part (cStep_member hord hk) (hconst hk) ?_⟩
    rw [toNat_index hord hk]
    exact member_get fields hk

theorem goodFields_of_tested (hw : w < 2 ^ 31) (hbytes : 8 ∣ w) (hw' : 32 ≤ w) : ∀ {ts : List Ty},
    WFs w ts → OrdinaryFields ts → (∀ t ∈ ts, 0 < alignOf w t ∧ ∃ p,
      p + cSize w t < 2 ^ 28 ∧ Tested (w := w) t p) → GoodFields w ts
  | [], _, _, _ => trivial
  | t :: ts, hwf, hord, h => by
    obtain ⟨ha, p, hp, htested⟩ := h t List.mem_cons_self
    exact ⟨good_of_tested hw hbytes hw' hwf.1 hord.1 hp htested, ha,
      goodFields_of_tested hw hbytes hw' hwf.2 hord.2 fun t ht => h t (List.mem_cons_of_mem _ ht)⟩

end

/-! ### All addresses -/

/-- In C, a member ends before the next ones start. -/
theorem member_disjoint : ∀ (ts : List Ty) {c i j o o' : ℕ} {t t' : Ty},
    (∀ t ∈ ts, 0 < alignOf w t) → i < j → member w c ts i = some (t, o) →
      member w c ts j = some (t', o') → o + cSize w t ≤ o'
  | [], _, _, _, _, _, _, _, _, _, h, _ => by simp [member] at h
  | t :: ts, c, 0, j + 1, o, o', t1, t2, ha, _, h, h' => by
    obtain ⟨rfl, rfl⟩ := Prod.mk.inj (Option.some_inj.mp h)
    exact le_member ts (fun t ht => ha t (List.mem_cons_of_mem _ ht)) h'
  | t :: ts, c, i + 1, j + 1, o, o', t1, t2, ha, hij, h, h' =>
    member_disjoint ts (fun t ht => ha t (List.mem_cons_of_mem _ ht))
      (Nat.lt_of_succ_lt_succ hij) h h'

/-- The members of every struct with an alignment are apart in C; a type that is laid out as in C
has all its addresses as in C, and only such a type has. -/
theorem simplifyGEP_sound_iff (hw' : 32 ≤ w) (hw : w < 2 ^ 31) (hbytes : 8 ∣ w) (T : Ty)
    (hwf : WF w T) :
    (Good w (ofPointer T) → Sound w T ∧ ∀ fields, Good w (.struct fields) →
      ∀ i j t t' o o', i < j → member w 0 fields i = some (t, o) →
        member w 0 fields j = some (t', o') → o + cSize w t ≤ o') ∧
    (Ordinary T → Sound w T → Good w (ofPointer T)) := by
  refine ⟨fun hgood => ⟨sound_of_good hw hbytes hw' hwf hgood, ?_⟩, fun hord hsound => ?_⟩
  · intro fields hfields i j t t' o o' hij h h'
    exact member_disjoint fields hfields.1.align_pos hij h h'
  · have hsize : 0 + cSize w (ofPointer T) < 2 ^ 28 := by
      rw [Nat.zero_add]
      exact WF.cSize_lt hw _ (wf_ofPointer hw hwf)
    exact good_of_tested hw hbytes hw' (wf_ofPointer hw hwf) ⟨one_ne_zero, hord⟩ hsize
      (tested_of_sound hsound)

/-- An `int`, an array of vectors and a pointer. -/
def record : Ty :=
  .struct [.scalar (.integer 32), .array 2 (.vector 3 .float), .pointer (.scalar .half)]

theorem record_wf : WF 64 record :=
  ⟨⟨⟨⟨by decide, by decide⟩, by decide⟩, ⟨⟨by decide, ⟨by decide, by decide⟩, by decide⟩,
    by decide⟩, trivial, trivial⟩, by decide⟩

theorem record_good : Good 64 (ofPointer record) :=
  ⟨⟨⟨trivial, by decide, ⟨trivial, ⟨by decide, by decide⟩, fun h => absurd h (by decide)⟩,
    by decide, trivial, by decide, trivial⟩, by decide, by decide, by decide, trivial⟩,
    ⟨by decide, by decide⟩, fun h => absurd h (by decide)⟩

theorem simplifyGEP_record : Sound 64 record :=
  ((simplifyGEP_sound_iff (by decide) (by decide) (by decide) record record_wf).1 record_good).1

/-- `struct { struct { int a; char b; } p; char c; }` -/
def nested : Ty :=
  .struct [.struct [.scalar (.integer 32), .scalar (.integer 8)], .scalar (.integer 8)]

theorem simplifyGEP_nested : WF 64 nested ∧ ¬ Sound 64 nested := by
  refine ⟨⟨⟨⟨⟨⟨⟨by decide, by decide⟩, by decide⟩, ⟨⟨by decide, by decide⟩, by decide⟩, trivial⟩,
    by decide⟩, ⟨⟨by decide, by decide⟩, by decide⟩, trivial⟩, by decide⟩, fun h => ?_⟩
  -- `c` is at 8, and the address computed is 5
  have hpath : path (w := 64) (ofPointer nested) [.const 0, .const 1] = some (8, 0) := by decide
  have hsound := h 0 _ _ _ hpath (.inr (by decide))
  exact absurd hsound (by decide)

end RemoveGEP

end Llvm
