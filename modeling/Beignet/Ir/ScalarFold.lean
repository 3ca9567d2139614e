/-
Folding of scalar integer immediates.

An operator of C++ promotes its operands, so that what is smaller than an `int` comes out as one,
and the constructor asserts that the result has the requested type.  The operations of
two's-complement arithmetic on words are given first; the folding is compared with them.

* **`scalar_fold_exact`** — where a folded scalar has the requested type and the value of the
  operation on words.
-/
import Beignet.Ir.Immediate

set_option linter.constructorNameAsVariable false

namespace Ir

open Saturate ImmType

namespace Immediate

/-! ### Operations on words -/

def ImmOpCode.isArithmetic : ImmOpCode → Bool
  | IMM_ADD | IMM_SUB | IMM_MUL | IMM_DIV | IMM_REM | IMM_AND | IMM_OR | IMM_XOR => true
  | _ => false

def ImmOpCode.isDivision : ImmOpCode → Bool
  | IMM_DIV | IMM_REM => true
  | _ => false

def ImmOpCode.isShift : ImmOpCode → Bool
  | IMM_SHL | IMM_ASHR | IMM_LSHR => true
  | _ => false

def ImmOpCode.isComparison : ImmOpCode → Bool
  | IMM_OEQ | IMM_ONE | IMM_OLE | IMM_OGE | IMM_OLT | IMM_OGT | IMM_ORD => true
  | _ => false

section

variable {w : ℕ}

def wordArithmetic (op : ImmOpCode) (signed : Bool) (x y : BitVec w) : BitVec w :=
  match op with
  | .IMM_ADD => x + y
  | .IMM_SUB => x - y
  | .IMM_MUL => x * y
  | .IMM_DIV => if signed then x.sdiv y else x / y
  | .IMM_REM => if signed then x.srem y else x % y
  | .IMM_AND => x &&& y
  | .IMM_OR => x ||| y
  | .IMM_XOR => x ^^^ y
  | _ => x

def wordShift (op : ImmOpCode) (x : BitVec w) (n : ℕ) : BitVec w :=
  match op with
  | .IMM_SHL => x <<< n
  | .IMM_ASHR => x.sshiftRight n
  | .IMM_LSHR => x >>> n
  | _ => x

def wordComparison (op : ImmOpCode) (signed : Bool) (x y : BitVec w) : Bool :=
  match op with
  | .IMM_OEQ => x == y
  | .IMM_ONE => x != y
  | .IMM_OLE => if signed then x.sle y else x.ule y
  | .IMM_OGE => if signed then y.sle x else y.ule x
  | .IMM_OLT => if signed then x.slt y else x.ult y
  | .IMM_OGT => if signed then y.slt x else y.ult x
  | _ => true

def wordConversion (op : ConvOpCode) (x : BitVec w) (w' : ℕ) : BitVec w' :=
  match op with
  | .IMM_SEXT => x.signExtend w'
  | _ => x.setWidth w'

/-- The integer that has to be in the range of a signed type. -/
def exactResult (op : ImmOpCode) (a b : ℤ) : ℤ :=
  match op with
  | .IMM_ADD => a + b
  | .IMM_SUB => a - b
  | .IMM_MUL => a * b
  | .IMM_DIV => a.tdiv b
  | .IMM_REM => a.tdiv b
  | _ => 0

end

/-! ### When the folding is right -/

def Fits (t : ImmType) (x : ℤ) : Prop := least t.width true ≤ x ∧ x ≤ greatest t.width true

/-- The type is not promoted, and a signed operation does not overflow. -/
def ArithmeticExact (op : ImmOpCode) (t : ImmType) (v w : BitVec t.width) : Prop :=
  t.promote = t ∧ (t.isSigned → Fits t (exactResult op (value t.isSigned v) (value t.isSigned w)))

/-- A shift of no bits, or one of a type that is not promoted; a shift to the right also has to
be that of the type. -/
def ShiftExact (op : ImmOpCode) (t : ImmType) (v : BitVec t.width) (n : ℕ) : Prop :=
  n = 0 ∨ t.promote = t ∧
    match op with
    | .IMM_ASHR => t.isSigned ∨ v.msb = false
    | .IMM_LSHR => ¬ t.isSigned
    | _ => True

def ConversionExact (op : ConvOpCode) (t dst : ImmType) (v : BitVec t.width) : Prop :=
  match op with
  | .IMM_TRUNC => dst = t
  | .IMM_BITCAST => True
  | .IMM_SEXT => False
  | .IMM_ZEXT => ¬ dst.isSigned ∧ (¬ t.isSigned ∨ v.msb = false ∨ dst.width = t.width)

/-- The conversions from a type to another. -/
def Admits (op : ConvOpCode) (t dst : ImmType) : Prop :=
  match op with
  | .IMM_TRUNC => dst.width ≤ t.width
  | .IMM_BITCAST => dst.width = t.width
  | _ => t.width ≤ dst.width

section

variable (junk : ℕ → BitVec 8)

/-- The folded immediate has the requested type and this value. -/
def Folds (op : ImmOpCode) (left right : Immediate) (dst : ImmType) (x : BitVec dst.width) : Prop :=
  ∃ imm, fold junk op left right dst = pure imm ∧ Holds imm dst x

def Converts (op : ConvOpCode) (other : Immediate) (dst : ImmType) (x : BitVec dst.width) : Prop :=
  ∃ imm, convert junk op other dst = pure imm ∧ Holds imm dst x

variable {junk} {op : ImmOpCode} {left right imm : Immediate} {t u dst : ImmType}

/-! ### The constructor -/

theorem fold_scalar (hleft : left.elemNum = 1) : fold junk op left right dst = (do
    let this ← assign junk (← result junk op left right dst)
    assert (this.type = dst ∨ dst = TYPE_LARGE_INT ∨ dst = TYPE_BOOL)
    return this) := by
  simp [fold, hleft]

theorem not_folds_of_throw {e : Fault} {x : BitVec dst.width} (hleft : left.elemNum = 1)
    (hres : result junk op left right dst = throw e) : ¬ Folds junk op left right dst x := by
  rintro ⟨imm, hfold, -⟩
  rw [fold_scalar hleft, hres] at hfold
  cases hfold

/-- A result of another type is no integer of the requested one. -/
theorem not_folds_of_type {y : BitVec t.width} {x : BitVec dst.width} (hleft : left.elemNum = 1)
    (hres : result junk op left right dst = pure imm) (himm : Holds imm t y) (ht : t ≠ dst) :
    ¬ Folds junk op left right dst x := by
  rintro ⟨imm2, hfold, hholds⟩
  obtain ⟨imm1, hassign, hcopy⟩ := himm.assign junk
  rw [fold_scalar hleft, hres] at hfold
  simp only [pure_bind, hassign, assert] at hfold
  split at hfold
  · cases hfold
    exact ht (hcopy.type.symm.trans hholds.type)
  · cases hfold

theorem folds_iff {y x : BitVec dst.width} (hleft : left.elemNum = 1)
    (hres : result junk op left right dst = pure imm) (himm : Holds imm dst y) :
    Folds junk op left right dst x ↔ y = x := by
  obtain ⟨imm1, hassign, hcopy⟩ := himm.assign junk
  have hfold : fold junk op left right dst = pure imm1 := by
    rw [fold_scalar hleft, hres]
    simp [hassign, assert, hcopy.type]
  constructor
  · rintro ⟨imm2, hfold2, hholds⟩
    rw [hfold] at hfold2
    cases hfold2
    exact hcopy.unique hholds
  · rintro rfl
    exact ⟨imm1, hfold, hcopy⟩

/-! ### Arithmetic -/

theorem binary_holds (f : ImmType → ℤ → ℤ → Result Immediate) {v w : BitVec t.width}
    (ht : t.isInteger) (hleft : Holds left t v) (hright : Holds right t w) :
    binary f left right = f t.promote (value t.isSigned v) (value t.isSigned w) := by
  have hfloat : ¬ (t = TYPE_FLOAT ∨ t = TYPE_HALF ∨ t = TYPE_DOUBLE) := by
    rintro (rfl | rfl | rfl)
    · exact Bool.false_ne_true ht
    · exact Bool.false_ne_true ht
    · exact Bool.false_ne_true ht
  have hlarge : t ≠ TYPE_LARGE_INT := by
    rintro rfl
    exact Bool.false_ne_true ht
  simp only [binary, hleft.type, hfloat, if_false, assert, hlarge, ne_eq, not_false_iff, if_true,
    hleft.fetch, hright.fetch, pure_bind]

theorem binaryInt_holds (f : ImmType → ℤ → ℤ → Result Immediate) {v w : BitVec t.width}
    (ht : t.isInteger) (hleft : Holds left t v) (hright : Holds right t w) :
    binaryInt f left right = f t.promote (value t.isSigned v) (value t.isSigned w) := by
  rw [binaryInt, binary_holds f ht hleft hright]
  simp [assert, hleft.type, ht]

/-- The operator on integers. -/
def arithmetic (op : ImmOpCode) : ImmType → ℤ → ℤ → Result Immediate :=
  match op with
  | .IMM_ADD => fun t a b => ofExpr t (a + b)
  | .IMM_SUB => fun t a b => ofExpr t (a - b)
  | .IMM_MUL => fun t a b => ofExpr t (a * b)
  | .IMM_DIV => quotient
  | .IMM_REM => remainder
  | .IMM_AND => bitwise fun _ => (· &&& ·)
  | .IMM_OR => bitwise fun _ => (· ||| ·)
  | _ => bitwise fun _ => (· ^^^ ·)

theorem result_arithmetic {v w : BitVec t.width} (hop : op.isArithmetic) (ht : t.isInteger)
    (hleft : Holds left t v) (hright : Holds right t w) : result junk op left right t =
      arithmetic op t.promote (value t.isSigned v) (value t.isSigned w) := by
  have htype := hleft.type
  cases op with
  | IMM_ADD => exact binary_holds (fun t a b => ofExpr t (a + b)) ht hleft hright
  | IMM_SUB => exact binary_holds (fun t a b => ofExpr t (a - b)) ht hleft hright
  | IMM_MUL => exact binary_holds (fun t a b => ofExpr t (a * b)) ht hleft hright
  | IMM_DIV => exact binary_holds _ ht hleft hright
  | IMM_REM =>
    rw [result, htype, if_pos ht]
    exact binaryInt_holds _ ht hleft hright
  | IMM_AND => exact binaryInt_holds _ ht hleft hright
  | IMM_OR => exact binaryInt_holds _ ht hleft hright
  | IMM_XOR => exact binaryInt_holds _ ht hleft hright
  | _ => exact absurd hop Bool.false_ne_true

theorem ofExpr_of_fits {x : ℤ} (h : t.isSigned → Fits t x) :
    ofExpr t x = pure (ofWord t (BitVec.ofInt t.width x)) := by
  refine if_neg fun hbad => ?_
  rw [Bool.and_eq_true, decide_eq_true_iff] at hbad
  exact hbad.2 (h hbad.1)

theorem ofExpr_of_not_fits {x : ℤ} (hs : t.isSigned) (h : ¬ Fits t x) :
    ofExpr t x = throw .undefined := by
  refine if_pos ?_
  rw [Bool.and_eq_true, decide_eq_true_iff]
  exact ⟨hs, h⟩

theorem ofExpr_cases (t : ImmType) (x : ℤ) :
    ofExpr t x = throw .undefined ∨ ∃ y, ofExpr t x = pure (ofWord t y) := by
  by_cases hs : t.isSigned = true
  · by_cases hfits : Fits t x
    · exact .inr ⟨_, ofExpr_of_fits fun _ => hfits⟩
    · exact .inl (ofExpr_of_not_fits hs hfits)
  · exact .inr ⟨_, ofExpr_of_fits fun h => absurd h hs⟩

/-- The result has the promoted type. -/
theorem arithmetic_cases (op : ImmOpCode) (t : ImmType) (a b : ℤ) :
    arithmetic op t a b = throw .undefined ∨ ∃ y, arithmetic op t a b = pure (ofWord t y) := by
  have hquot : quotient t a b = throw .undefined ∨ ∃ y, quotient t a b = pure (ofWord t y) := by
    rw [quotient]
    split
    · exact .inl rfl
    · exact ofExpr_cases _ _
  cases op with
  | IMM_ADD => exact ofExpr_cases _ _
  | IMM_SUB => exact ofExpr_cases _ _
  | IMM_MUL => exact ofExpr_cases _ _
  | IMM_DIV => exact hquot
  | IMM_REM =>
    obtain hthrow | ⟨y, hpure⟩ := hquot
    · refine .inl ?_
      rw [arithmetic, remainder, hthrow]
      rfl
    · rw [arithmetic, remainder, hpure, pure_bind]
      exact ofExpr_cases _ _
  | _ => exact .inr ⟨_, rfl⟩

/-- The range of a signed word. -/
theorem fits_value (ht : t.isSigned) (v : BitVec t.width) : Fits t (value t.isSigned v) := by
  rw [Fits, ht]
  have hlo := BitVec.le_toInt v
  have hhi := BitVec.toInt_lt (x := v)
  exact ⟨hlo, Int.le_sub_one_of_lt hhi⟩

theorem value_ne_zero {v : BitVec t.width} (hv : v ≠ 0) : value t.isSigned v ≠ 0 := by
  intro h
  refine hv ?_
  rw [← ofInt_value t.isSigned v, h]
  rfl

/-- Operators on the values of words. -/
theorem ofInt_quotient (t : ImmType) (v w : BitVec t.width) :
    BitVec.ofInt t.width ((value t.isSigned v).tdiv (value t.isSigned w)) =
      wordArithmetic .IMM_DIV t.isSigned v w := by
  rw [wordArithmetic]
  cases t.isSigned with
  | true =>
    rw [if_pos rfl]
    apply BitVec.eq_of_toInt_eq
    rw [BitVec.toInt_ofInt, BitVec.toInt_sdiv]
    rfl
  | false =>
    have hdiv : (value false v).tdiv (value false w) = ((v.toNat / w.toNat : ℕ) : ℤ) :=
      (Int.ofNat_tdiv _ _).symm
    rw [hdiv, BitVec.ofInt_natCast, if_neg Bool.false_ne_true]
    apply BitVec.eq_of_toNat_eq
    rw [BitVec.toNat_ofNat, BitVec.toNat_udiv]
    exact Nat.mod_eq_of_lt ((Nat.div_le_self _ _).trans_lt v.isLt)

theorem ofInt_remainder (t : ImmType) (v w : BitVec t.width) :
    BitVec.ofInt t.width ((value t.isSigned v).tmod (value t.isSigned w)) =
      wordArithmetic .IMM_REM t.isSigned v w := by
  rw [wordArithmetic]
  cases t.isSigned with
  | true =>
    have hmod : (value true v).tmod (value true w) = (v.srem w).toInt :=
      (BitVec.toInt_srem v w).symm
    rw [hmod, BitVec.ofInt_toInt, if_pos rfl]
  | false =>
    have hmod : (value false v).tmod (value false w) = ((v.toNat % w.toNat : ℕ) : ℤ) :=
      (Int.ofNat_tmod _ _).symm
    rw [hmod, BitVec.ofInt_natCast, if_neg Bool.false_ne_true]
    apply BitVec.eq_of_toNat_eq
    rw [BitVec.toNat_ofNat, BitVec.toNat_umod]
    exact Nat.mod_eq_of_lt ((Nat.mod_le _ _).trans_lt v.isLt)

theorem ofInt_value_mul (signed : Bool) {w : ℕ} (x y : BitVec w) :
    BitVec.ofInt w (value signed x * value signed y) = x * y := by
  rw [BitVec.ofInt_mul, ofInt_value, ofInt_value]

/-- The operator where it is defined. -/
theorem arithmetic_of_fits (hop : op.isArithmetic) {v w : BitVec t.width}
    (hw : op.isDivision → w ≠ 0) (hfits : t.isSigned →
      Fits t (exactResult op (value t.isSigned v) (value t.isSigned w))) :
    arithmetic op t (value t.isSigned v) (value t.isSigned w) =
      pure (ofWord t (wordArithmetic op t.isSigned v w)) := by
  cases op with
  | IMM_ADD => exact (ofExpr_of_fits hfits).trans (congrArg _ (congrArg _ (ofInt_value_add _ _ _)))
  | IMM_SUB => exact (ofExpr_of_fits hfits).trans (congrArg _ (congrArg _ (ofInt_value_sub _ _ _)))
  | IMM_MUL => exact (ofExpr_of_fits hfits).trans (congrArg _ (congrArg _ (ofInt_value_mul _ _ _)))
  | IMM_DIV =>
    have hquot : ofExpr t ((value t.isSigned v).tdiv (value t.isSigned w)) = _ :=
      ofExpr_of_fits hfits
    rw [arithmetic, quotient, if_neg (value_ne_zero (hw rfl)), hquot, ofInt_quotient]
  | IMM_REM =>
    -- the remainder is no larger than the first operand
    have hrem : t.isSigned → Fits t ((value t.isSigned v).tmod (value t.isSigned w)) := by
      intro hs
      have h := fits_value hs (v.srem w)
      rw [hs] at h ⊢
      exact (BitVec.toInt_srem v w) ▸ h
    have hquot : ofExpr t ((value t.isSigned v).tdiv (value t.isSigned w)) = _ :=
      ofExpr_of_fits hfits
    rw [arithmetic, remainder, quotient, if_neg (value_ne_zero (hw rfl)), hquot, pure_bind,
      ofExpr_of_fits hrem, ofInt_remainder]
  | IMM_AND => simp only [arithmetic, bitwise, ofInt_value, wordArithmetic]
  | IMM_OR => simp only [arithmetic, bitwise, ofInt_value, wordArithmetic]
  | IMM_XOR => simp only [arithmetic, bitwise, ofInt_value, wordArithmetic]
  | _ => exact absurd hop Bool.false_ne_true

/-- And where it is not. -/
theorem arithmetic_of_not_fits (hop : op.isArithmetic) {v w : BitVec t.width}
    (hs : t.isSigned)
    (hfits : ¬ Fits t (exactResult op (value t.isSigned v) (value t.isSigned w))) :
    arithmetic op t (value t.isSigned v) (value t.isSigned w) = throw .undefined := by
  have hzero : Fits t 0 := by
    have h := fits_value hs 0
    rw [hs] at h
    exact (BitVec.toInt_zero (w := t.width)) ▸ h
  have hquot : ¬ Fits t ((value t.isSigned v).tdiv (value t.isSigned w)) →
      quotient t (value t.isSigned v) (value t.isSigned w) = throw .undefined := by
    intro h
    rw [quotient]
    split
    · rfl
    · exact ofExpr_of_not_fits hs h
  cases op with
  | IMM_ADD => exact ofExpr_of_not_fits hs hfits
  | IMM_SUB => exact ofExpr_of_not_fits hs hfits
  | IMM_MUL => exact ofExpr_of_not_fits hs hfits
  | IMM_DIV => exact hquot hfits
  | IMM_REM =>
    rw [arithmetic, remainder, hquot hfits]
    rfl
  | IMM_AND => exact absurd hzero hfits
  | IMM_OR => exact absurd hzero hfits
  | IMM_XOR => exact absurd hzero hfits
  | _ => exact absurd hop Bool.false_ne_true

theorem arithmetic_exact (hop : op.isArithmetic) (ht : t.isInteger) {v w : BitVec t.width}
    (hleft : Holds left t v) (hright : Holds right t w) (hw : op.isDivision → w ≠ 0) :
    Folds junk op left right t (wordArithmetic op t.isSigned v w) ↔ ArithmeticExact op t v w := by
  have hres : result junk op left right t =
      arithmetic op t.promote (value t.isSigned v) (value t.isSigned w) :=
    result_arithmetic hop ht hleft hright
  by_cases hp : t.promote = t
  · rw [hp] at hres
    by_cases hfits : t.isSigned → Fits t (exactResult op (value t.isSigned v) (value t.isSigned w))
    · rw [arithmetic_of_fits hop hw hfits] at hres
      rw [folds_iff hleft.elemNum hres (holds_ofWord _ _)]
      exact iff_of_true rfl ⟨hp, hfits⟩
    · obtain ⟨hs, hbad⟩ := Classical.not_imp.mp hfits
      rw [arithmetic_of_not_fits hop hs hbad] at hres
      exact iff_of_false (not_folds_of_throw hleft.elemNum hres) fun h => hfits h.2
  · -- an `int`
    refine iff_of_false ?_ fun h => hp h.1
    obtain hthrow | ⟨y, hpure⟩ :=
      arithmetic_cases op t.promote (value t.isSigned v) (value t.isSigned w)
    · exact not_folds_of_throw hleft.elemNum (hres.trans hthrow)
    · exact not_folds_of_type hleft.elemNum (hres.trans hpure) (holds_ofWord _ _) hp

/-! ### Shifts -/

theorem width_le_promote (t : ImmType) : t.width ≤ t.promote.width := by
  cases t <;> decide

theorem width_le (t : ImmType) : t.width ≤ 64 := Nat.mul_le_mul_left 8 (getTypeSize_le t)

/-- A count in an immediate of any type. -/
theorem int32_count {c : BitVec u.width} {n : ℕ} (hu : u.isInteger) (hright : Holds right u c)
    (hc : value u.isSigned c = n) (hn : n < 64) :
    ∃ x, right.getIntegerValue = pure x ∧ int32 x = n := by
  have hvalue : (BitVec.ofInt 64 (n : ℤ)).toInt = n := by
    rw [BitVec.toInt_ofInt]
    exact Int.bmod_eq_of_le (by omega) (by omega)
  refine ⟨n, ?_, ?_⟩
  · rw [getIntegerValue, hright.type, hright.fetch, hc]
    simp only [assert, hu, or_true, if_true, pure_bind, hvalue]
  · rw [int32, BitVec.toInt_ofInt]
    exact Int.bmod_eq_of_le (by omega) (by omega)

theorem shift_holds (f : (t : ImmType) → ℤ → ℕ → BitVec t.width) (member : ImmType → ImmType)
    {v : BitVec t.width} {v' : BitVec (member t).width} {c : BitVec u.width} {n : ℕ}
    (ht : t.isInteger) (hu : u.isInteger) (hleft : Holds left t v)
    (hmember : left.word (member t) = pure v') (hright : Holds right u c)
    (hc : value u.isSigned c = n) (hn : n < t.width) (hwidth : t.width ≤ (member t).promote.width) :
    shift junk f member left right = if n = 0 then assign junk left
      else pure (ofWord _ (f (member t).promote (value (member t).isSigned v') n)) := by
  have hle := width_le t
  obtain ⟨x, hx, hx32⟩ := int32_count hu hright hc (by omega)
  have hfetch : left.fetch (member t) = pure (value (member t).isSigned v') := by
    rw [fetch, hmember]
    rfl
  rw [shift, hleft.type, hx]
  simp only [assert, ht, if_true, pure_bind, hx32]
  by_cases hzero : n = 0
  · rw [if_pos (by omega), if_pos hzero]
  · rw [if_neg (by omega), if_neg hzero, hfetch, pure_bind, if_neg (by omega), Int.toNat_natCast]

theorem width_unsigned (t : ImmType) : t.unsigned.width = t.width := by
  cases t <;> rfl

theorem isSigned_unsigned (t : ImmType) : t.unsigned.isSigned = false := by
  cases t <;> rfl

/-- The same bytes as a word of another type. -/
theorem word_of_width {v : BitVec t.width} (h : imm.word t = pure v)
    (hdst : dst.width = t.width) : imm.word dst = pure (v.setWidth dst.width) := by
  have hsize : dst.getTypeSize = t.getTypeSize := Nat.eq_of_mul_eq_mul_left (by decide) hdst
  obtain ⟨hlen, hv⟩ := word_eq_pure.mp h
  refine word_eq_pure.mpr ⟨hsize ▸ hlen, ?_⟩
  rw [hsize, ← hv]
  apply BitVec.eq_of_toNat_eq
  rw [BitVec.toNat_setWidth, BitVec.toNat_ofNat, BitVec.toNat_ofNat, hdst, Nat.mod_mod]

/-- A shift that is left out gives the operand, any other one a result of the promoted type. -/
theorem shift_folds (f : (t : ImmType) → ℤ → ℕ → BitVec t.width) (member : ImmType → ImmType)
    {v x : BitVec t.width} {a : ℤ} {n : ℕ} (hleft : Holds left t v)
    (hres : result junk op left right t = if n = 0 then assign junk left
      else pure (ofWord _ (f (member t).promote a n))) :
    Folds junk op left right t x ↔
      if n = 0 then v = x else (member t).promote = t ∧ f t a n = x := by
  split at hres
  · next hzero =>
    obtain ⟨imm, hassign, himm⟩ := hleft.assign junk
    rw [hassign] at hres
    rw [if_pos hzero, folds_iff hleft.elemNum hres himm]
  · next hzero =>
    rw [if_neg hzero]
    by_cases hp : (member t).promote = t
    · rw [hp] at hres
      rw [folds_iff hleft.elemNum hres (holds_ofWord _ _)]
      exact (and_iff_right hp).symm
    · exact iff_of_false (not_folds_of_type hleft.elemNum hres (holds_ofWord _ _) hp)
        fun h => hp h.1

theorem promote_unsigned (t : ImmType) : t.unsigned.promote = t ↔ t.promote = t ∧ ¬ t.isSigned := by
  cases t <;> decide

/-- The shifted value of an unsigned word. -/
theorem rightShifted_natCast (v : BitVec t.width) (n : ℕ) :
    rightShifted t (v.toNat : ℤ) n = v >>> n := by
  have hdiv : (v.toNat : ℤ) >>> n = ((v.toNat / 2 ^ n : ℕ) : ℤ) := by
    rw [Int.shiftRight_eq_div_pow]
    norm_cast
  rw [rightShifted, hdiv, BitVec.ofInt_natCast]
  apply BitVec.eq_of_toNat_eq
  rw [BitVec.toNat_ofNat, BitVec.toNat_ushiftRight, Nat.shiftRight_eq_div_pow]
  exact Nat.mod_eq_of_lt ((Nat.div_le_self _ _).trans_lt v.isLt)

/-- The operator of C++ shifts zeros into the words of unsigned types. -/
theorem rightShifted_eq_iff (v : BitVec t.width) {n : ℕ} (hzero : n ≠ 0) :
    rightShifted t (value t.isSigned v) n = v.sshiftRight n ↔ t.isSigned ∨ v.msb = false := by
  cases hs : t.isSigned with
  | true =>
    refine iff_of_true ?_ (.inl rfl)
    rfl
  | false =>
    have hshift : rightShifted t (value false v) n = v >>> n := rightShifted_natCast v n
    rw [hshift]
    constructor
    · intro h
      -- the highest bit
      have hbit := congrArg BitVec.msb h
      rw [BitVec.msb_sshiftRight, BitVec.msb_ushiftRight] at hbit
      simpa [hzero] using hbit.symm
    · rintro (h | h)
      · exact absurd h Bool.false_ne_true
      · rw [BitVec.sshiftRight_eq_of_msb_false h]

theorem shift_exact (hop : op.isShift) (ht : t.isInteger) (hu : u.isInteger) {v : BitVec t.width}
    {c : BitVec u.width} {n : ℕ} (hleft : Holds left t v) (hright : Holds right u c)
    (hc : value u.isSigned c = n) (hn : n < t.width) :
    Folds junk op left right t (wordShift op v n) ↔ ShiftExact op t v n := by
  have hword := hleft.word
  cases op with
  | IMM_SHL =>
    have hres : result junk .IMM_SHL left right t = _ :=
      shift_holds leftShifted id ht hu hleft hword hright hc hn (width_le_promote t)
    have hshift : leftShifted t (value t.isSigned v) n = v <<< n := by
      rw [leftShifted, ofInt_value]
    rw [shift_folds leftShifted id hleft hres]
    by_cases hzero : n = 0
    · simp [ShiftExact, wordShift, hzero]
    · simp [ShiftExact, wordShift, hzero, hshift]
  | IMM_ASHR =>
    have hres : result junk .IMM_ASHR left right t = _ :=
      shift_holds rightShifted id ht hu hleft hword hright hc hn (width_le_promote t)
    rw [shift_folds rightShifted id hleft hres, ShiftExact, wordShift]
    by_cases hzero : n = 0
    · simp [hzero]
    · simp only [hzero, if_false, false_or, id, rightShifted_eq_iff v hzero]
  | IMM_LSHR =>
    have hwidth : t.width ≤ t.unsigned.promote.width := width_unsigned t ▸ width_le_promote _
    have hres : result junk .IMM_LSHR left right t = _ :=
      shift_holds rightShifted ImmType.unsigned ht hu hleft
        (word_of_width hword (width_unsigned t)) hright hc hn hwidth
    have hvalue : value t.unsigned.isSigned (v.setWidth t.unsigned.width) = v.toNat := by
      rw [isSigned_unsigned, value, if_neg Bool.false_ne_true, BitVec.toNat_setWidth,
        width_unsigned, Nat.mod_eq_of_lt v.isLt]
    rw [hvalue] at hres
    rw [shift_folds rightShifted ImmType.unsigned hleft hres, ShiftExact, wordShift]
    by_cases hzero : n = 0
    · simp [hzero]
    · simp [hzero, promote_unsigned, rightShifted_natCast]
  | _ => exact absurd hop Bool.false_ne_true

/-! ### Comparisons -/

theorem compare_holds (f : ℤ → ℤ → Bool) {v w : BitVec t.width} (ht : t.isInteger ∨ t = TYPE_BOOL)
    (hleft : Holds left t v) (hright : Holds right t w) :
    compare f left right = pure (ofBool (f (value t.isSigned v) (value t.isSigned w))) := by
  have hfloat : ¬ (t = TYPE_FLOAT ∨ t = TYPE_HALF ∨ t = TYPE_DOUBLE) := by
    cases t <;> simp_all [isInteger]
  have hlarge : t ≠ TYPE_LARGE_INT := by
    cases t <;> simp_all [isInteger]
  simp only [compare, binary, hleft.type, hfloat, if_false, assert, hlarge, ne_eq, not_false_iff,
    if_true, hleft.fetch, hright.fetch, pure_bind]

theorem holds_ofBool (b : Bool) : Holds (ofBool b) TYPE_BOOL (BitVec.ofNat 8 b.toNat) :=
  holds_ofWord TYPE_BOOL _

/-- The orders on words. -/
theorem value_lt (signed : Bool) {w : ℕ} (x y : BitVec w) :
    decide (value signed x < value signed y) = if signed then x.slt y else x.ult y := by
  cases signed with
  | true => rfl
  | false => exact decide_eq_decide.mpr Int.ofNat_lt

theorem value_le (signed : Bool) {w : ℕ} (x y : BitVec w) :
    decide (value signed x ≤ value signed y) = if signed then x.sle y else x.ule y := by
  cases signed with
  | true => rfl
  | false => exact decide_eq_decide.mpr Int.ofNat_le

theorem value_beq (signed : Bool) {w : ℕ} (x y : BitVec w) :
    (value signed x == value signed y) = (x == y) := by
  rw [Bool.eq_iff_iff, beq_iff_eq, beq_iff_eq]
  constructor
  · intro h
    rw [← ofInt_value signed x, h, ofInt_value]
  · rintro rfl
    rfl

theorem result_comparison (hop : op.isComparison) (ht : t.isInteger) {v w : BitVec t.width}
    (hleft : Holds left t v) (hright : Holds right t w) :
    result junk op left right dst = pure (ofBool (wordComparison op t.isSigned v w)) := by
  have hcompare := fun f => compare_holds f (.inl ht) hleft hright
  cases op with
  | IMM_OEQ => rw [result, hcompare, value_beq, wordComparison]
  | IMM_ONE => rw [result, hcompare, wordComparison, bne, value_beq, bne]
  | IMM_OLE => rw [result, hcompare, value_le, wordComparison]
  | IMM_OGE => exact (hcompare _).trans (congrArg _ (congrArg _ (value_le _ w v)))
  | IMM_OLT =>
    have htype : left.type ≠ TYPE_BOOL := by
      rw [hleft.type]
      rintro rfl
      exact Bool.false_ne_true ht
    rw [result, hcompare, value_lt, wordComparison, assert, if_pos htype]
    rfl
  | IMM_OGT => exact (hcompare _).trans (congrArg _ (congrArg _ (value_lt _ w v)))
  | IMM_ORD =>
    -- both operands are equal to themselves
    have hl := compare_holds (· == ·) (.inl ht) hleft hleft
    have hr := compare_holds (· == ·) (.inl ht) hright hright
    rw [value_beq, beq_self_eq_true] at hl hr
    rw [result, hl, hr, pure_bind, pure_bind,
      compare_holds _ (.inr rfl) (holds_ofBool true) (holds_ofBool true)]
    rfl
  | _ => exact absurd hop Bool.false_ne_true

theorem comparison_exact (hop : op.isComparison) (ht : t.isInteger) {v w : BitVec t.width}
    (hleft : Holds left t v) (hright : Holds right t w) :
    Folds junk op left right TYPE_BOOL
      (BitVec.ofNat 8 (wordComparison op t.isSigned v w).toNat) := by
  have hres : result junk op left right TYPE_BOOL =
      pure (ofBool (wordComparison op t.isSigned v w)) :=
    result_comparison hop ht hleft hright
  exact (folds_iff hleft.elemNum hres (holds_ofBool _)).mpr rfl

/-! ### Conversions -/

theorem signExtended_eq_throw {v : BitVec t.width} (ht : t.isInteger) (himm : Holds imm t v)
    (hdst : dst.isSigned = false) : signExtended imm dst = throw .assertion := by
  rw [signExtended, getIntegerValue, himm.type, himm.fetch]
  simp [assert, ht, hdst]
  rfl

theorem zeroExtended_holds {v : BitVec t.width} (ht : t.isInteger) (hdst : dst.isInteger)
    (himm : Holds imm t v) : zeroExtended imm dst = if dst.isSigned then throw .assertion
      else pure (ofWord dst
        (BitVec.ofNat dst.width (BitVec.ofInt 64 (value t.isSigned v)).toNat)) := by
  rw [zeroExtended, getUnsignedIntegerValue, himm.type, himm.fetch]
  cases hs : dst.isSigned with
  | true =>
    simp [assert, ht]
    rfl
  | false => simp [assert, ht, hdst]

/-- The value of a signed type is extended by its sign. -/
theorem extended_eq_iff (v : BitVec t.width) (hle : t.width ≤ dst.width) :
    BitVec.ofNat dst.width (BitVec.ofInt 64 (value t.isSigned v)).toNat = v.setWidth dst.width ↔
      ¬ t.isSigned ∨ v.msb = false ∨ dst.width = t.width := by
  have hpos : BitVec.ofNat dst.width (BitVec.ofInt 64 (v.toNat : ℤ)).toNat =
      v.setWidth dst.width := by
    have hlt : v.toNat < 2 ^ 64 := v.isLt.trans_le (Nat.pow_le_pow_right (by decide) (width_le t))
    rw [BitVec.ofInt_natCast, BitVec.toNat_ofNat, Nat.mod_eq_of_lt hlt, BitVec.ofNat_toNat]
  cases hs : t.isSigned with
  | false => exact iff_of_true hpos (.inl Bool.false_ne_true)
  | true =>
    cases hmsb : v.msb with
    | false =>
      refine iff_of_true ?_ (.inr (.inl rfl))
      rw [value, if_pos rfl, BitVec.toInt_eq_msb_cond, hmsb]
      exact hpos
    | true =>
      rw [value, if_pos rfl, BitVec.toInt_eq_msb_cond, hmsb, if_pos rfl]
      -- the bits in front of the word are ones, and there are some if the width is another one
      obtain ⟨q, hq⟩ : 2 ^ dst.width ∣ 2 ^ 64 := Nat.pow_dvd_pow 2 (width_le dst)
      have hlt := v.isLt
      have hpow : 2 ^ t.width ≤ 2 ^ dst.width := Nat.pow_le_pow_right (by decide) hle
      have hneg : (BitVec.ofInt 64 ((v.toNat : ℤ) - (2 ^ t.width : ℕ))).toNat =
          2 ^ 64 - 2 ^ t.width + v.toNat := by
        have h64 : 2 ^ t.width ≤ 2 ^ 64 := Nat.pow_le_pow_right (by decide) (width_le t)
        rw [BitVec.toNat_ofInt]
        omega
      have hq' : 0 < q := by
        rcases Nat.eq_zero_or_pos q with rfl | hq'
        · rw [Nat.mul_zero] at hq
          exact absurd hq (by decide)
        · exact hq'
      obtain ⟨q, rfl⟩ := Nat.exists_eq_succ_of_ne_zero hq'.ne'
      have hsplit : 2 ^ 64 - 2 ^ t.width + v.toNat =
          2 ^ dst.width * q + (2 ^ dst.width - 2 ^ t.width + v.toNat) := by
        rw [hq, Nat.mul_succ]
        omega
      rw [hneg, ← BitVec.toNat_inj, BitVec.toNat_ofNat, BitVec.toNat_setWidth, hsplit,
        Nat.mul_add_mod, Nat.mod_eq_of_lt (by omega), Nat.mod_eq_of_lt (by omega)]
      constructor
      · intro h
        have hsame : 2 ^ dst.width = 2 ^ t.width := by
          omega
        exact .inr (.inr (Nat.pow_right_injective le_rfl hsame))
      · rintro (h | h | h)
        · exact absurd rfl h
        · cases h
        · rw [h]
          omega

theorem conversion_exact (conv : ConvOpCode) (ht : t.isInteger) (hdst : dst.isInteger)
    (hadmits : Admits conv t dst) {v : BitVec t.width} (hleft : Holds left t v) :
    Converts junk conv left dst (wordConversion conv v dst.width) ↔
      ConversionExact conv t dst v := by
  cases conv with
  | IMM_TRUNC =>
    obtain ⟨imm, hcopy, himm⟩ := hleft.copy junk
    constructor
    · rintro ⟨imm', hconvert, himm'⟩
      cases hcopy.symm.trans hconvert
      exact himm'.type.symm.trans himm.type
    · intro hsame
      obtain rfl : dst = t := hsame
      refine ⟨imm, hcopy, ?_⟩
      have hword : wordConversion .IMM_TRUNC v dst.width = v := BitVec.setWidth_eq v
      rw [hword]
      exact himm
  | IMM_BITCAST =>
    obtain ⟨imm, hassign, himm⟩ := hleft.assign junk
    refine iff_of_true ⟨{ imm with type := dst }, ?_, rfl, himm.elemNum, ?_⟩ trivial
    · rw [convert, hassign]
      rfl
    · exact word_of_width himm.word hadmits
  | IMM_SEXT =>
    refine iff_of_false ?_ id
    rintro ⟨imm, hconvert, -⟩
    rw [convert] at hconvert
    -- one of the two conversions refuses the type
    cases hs : dst.isSigned with
    | true =>
      rw [zeroExtended_holds ht hdst hleft, hs, if_pos rfl] at hconvert
      cases hsign : signExtended left dst with
      | error e =>
        rw [hsign] at hconvert
        cases hconvert
      | ok x =>
        rw [hsign] at hconvert
        cases hconvert
    | false =>
      rw [signExtended_eq_throw ht hleft hs] at hconvert
      cases hconvert
  | IMM_ZEXT =>
    have hconvert := zeroExtended_holds ht hdst hleft
    rw [ConversionExact, ← extended_eq_iff v hadmits]
    cases hs : dst.isSigned with
    | true =>
      rw [hs, if_pos rfl] at hconvert
      refine iff_of_false ?_ fun h => h.1 rfl
      rintro ⟨imm, h, -⟩
      cases hconvert.symm.trans h
    | false =>
      rw [hs, if_neg Bool.false_ne_true] at hconvert
      constructor
      · rintro ⟨imm, h, himm⟩
        cases hconvert.symm.trans h
        exact ⟨Bool.false_ne_true, (holds_ofWord dst _).unique himm⟩
      · rintro ⟨-, h⟩
        refine ⟨_, hconvert, ?_⟩
        rw [h]
        exact holds_ofWord dst _

/-- Every operation on integers in scalars: whether the folded immediate has the requested type and
the value of the operation on words. -/
theorem scalar_fold_exact (ht : t.isInteger) {v : BitVec t.width} (hleft : Holds left t v) :
    (∀ op right (w : BitVec t.width), op.isArithmetic → Holds right t w →
      (op.isDivision → w ≠ 0) →
        (Folds junk op left right t (wordArithmetic op t.isSigned v w) ↔
          ArithmeticExact op t v w)) ∧
    (∀ op right (u : ImmType) (c : BitVec u.width) (n : ℕ), op.isShift → u.isInteger →
      Holds right u c → value u.isSigned c = n → n < t.width →
        (Folds junk op left right t (wordShift op v n) ↔ ShiftExact op t v n)) ∧
    (∀ op right (w : BitVec t.width), op.isComparison → Holds right t w →
      Folds junk op left right TYPE_BOOL
        (BitVec.ofNat 8 (wordComparison op t.isSigned v w).toNat)) ∧
    ∀ conv (dst : ImmType), dst.isInteger → Admits conv t dst →
      (Converts junk conv left dst (wordConversion conv v dst.width) ↔
        ConversionExact conv t dst v) :=
  ⟨fun _ _ _ hop hright hw => arithmetic_exact hop ht hleft hright hw,
    fun _ _ _ _ _ hop hu hright hc hn => shift_exact hop ht hu hleft hright hc hn,
    fun _ _ _ hop hright => comparison_exact hop ht hleft hright,
    fun conv _ hdst hadmits => conversion_exact conv ht hdst hadmits hleft⟩

/-- The sum of two numbers of 32 bits. -/
theorem scalar_fold_exact_sum :
    Folds (fun _ => 0) .IMM_ADD (ofWord TYPE_S32 7) (ofWord TYPE_S32 (-9)) TYPE_S32 (-2) :=
  ((scalar_fold_exact rfl (holds_ofWord TYPE_S32 7)).1 .IMM_ADD (ofWord TYPE_S32 (-9)) (-9) rfl
    (holds_ofWord _ _) (by decide)).mpr ⟨rfl, fun _ => ⟨by decide, by decide⟩⟩

/-- The sum of two bytes is an `int`. -/
theorem not_folds_bytes :
    ¬ Folds (fun _ => 0) .IMM_ADD (ofWord TYPE_S8 1) (ofWord TYPE_S8 1) TYPE_S8 2 := by
  rintro ⟨imm, h, -⟩
  cases h

end

end Immediate

end Ir
