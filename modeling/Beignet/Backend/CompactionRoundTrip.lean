/-
Compaction and decompaction.

A word of an instruction is described by the values of its fields.  The encoder and
`decompactInstruction` give the same values to almost all of them: the patterns that are
found in the tables are the keys that were looked up.

The bit `cmpt_control` tells a compact instruction from another one; decompaction copies
it, so that no instruction comes back as the encoder would have emitted it.  Apart from
that bit an instruction comes back exactly when it is `Regular`.

* `lookup_eq_some` — an index that is found leads back to the key;
* `decompact_iff` — what comes back.
-/
import Beignet.Backend.Compaction

namespace Compact

open BitFields

/-! ### Tables -/

theorem bsearch_eq_some {key : BitVec 32} {table : List Entry} {fuel l u : ℕ} {e : Entry}
    (h : bsearch key table fuel l u = some e) : e ∈ table ∧ e.bit_pattern = key := by
  induction fuel generalizing l u with
  | zero => cases h
  | succ fuel ih =>
    rw [bsearch] at h
    split at h
    swap
    · cases h
    split at h
    swap
    · cases h
    rename_i e' he'
    split at h
    · exact ih h
    split at h
    · exact ih h
    · rename_i hneg hpos
      rw [Option.some_inj] at h
      subst h
      have hzero : (key - e'.bit_pattern).toInt = 0 := by omega
      have hsub : key - e'.bit_pattern = 0#32 := BitVec.toInt_inj.mp (by simpa using hzero)
      rw [BitVec.sub_eq_iff_eq_add, BitVec.zero_add] at hsub
      exact ⟨List.mem_of_getElem? he', hsub.symm⟩

theorem lookup_eq_some {key index : BitVec 32} {table : List Entry}
    (h : lookup key table = some index) : ∃ e ∈ table, e.bit_pattern = key ∧ e.index = index := by
  obtain ⟨e, he, rfl⟩ := Option.map_eq_some_iff.mp h
  obtain ⟨hmem, hkey⟩ := bsearch_eq_some he
  exact ⟨e, hmem, hkey, rfl⟩

/-- A table that is read with the indices of another one. -/
def Inverts (table inverse : List Entry) (index : BitVec 32 → BitVec 32) : Prop :=
  ∀ e ∈ table, patternAt inverse (index e.index) = e.bit_pattern

instance (table inverse : List Entry) (index : BitVec 32 → BitVec 32) :
    Decidable (Inverts table inverse index) :=
  inferInstanceAs (Decidable (∀ e ∈ table, _))

theorem Inverts.patternAt_eq {table inverse : List Entry} {f : BitVec 32 → BitVec 32}
    (h : Inverts table inverse f) {key index : BitVec 32}
    (hlookup : lookup key table = some index) :
    patternAt inverse (f index) = key := by
  obtain ⟨e, he, rfl, rfl⟩ := lookup_eq_some hlookup
  exact h e he

/-- The patterns of each table are in the one that decompaction looks in. -/
structure TablesInvert : Prop where
  control : Inverts control_table control_table (truncate 5)
  src3Control : Inverts src3_control_table src3_control_table (truncate 2)
  dataType : Inverts data_type_table data_type_decompact (truncate 5)
  gen8DataType : Inverts gen8_data_type_table gen8_data_type_table (truncate 5)
  subReg : Inverts subreg_table subreg_table (truncate 5)
  srcReg : Inverts srcreg_table srcreg_table (truncate 5)
  /-- the index in two parts -/
  srcRegParts : Inverts srcreg_table srcreg_table fun i =>
    truncate 2 (i &&& 3) ||| truncate 3 (i >>> 2) <<< 2

theorem tables_invert : TablesInvert := by
  constructor <;> decide +kernel

/-- No pattern of control bits inverts the predicate. -/
theorem control_table_predicate_inverse :
    ∀ e ∈ control_table, get ControlBits.predicate_inverse e.bit_pattern = 0 := by
  decide +kernel

/-! ### The fields of a compact instruction -/

section Fields

variable (s : GenInstructionState) (opcode : BitVec 7)
  (condition control_index data_type_index sub_reg_index src0_index : BitVec 32)

theorem compactBits1_holds :
    Holds [(Src2Insn.opcode, truncate 7 (u32 opcode)), (Src2Insn.debug_control, 0),
      (Src2Insn.control_index, truncate 5 control_index),
      (Src2Insn.data_type_index, truncate 5 data_type_index),
      (Src2Insn.sub_reg_index, truncate 5 sub_reg_index),
      (Src2Insn.acc_wr_control, truncate 1 (u32 s.accWrEnable)),
      (Src2Insn.destreg_or_condmod, truncate 4 condition), (Src2Insn.cmpt_control, 1),
      (Src2Insn.src0_index_lo, truncate 2 (src0_index &&& 3))]
      (compactBits1 s opcode condition control_index data_type_index sub_reg_index src0_index) := by
  simp only [holds_cons, holds_nil, compactBits1, nextCompact]
  simp (disch := decide) only [get_set_self, get_set_of_disjoint, get_zero, and_true, true_and]
  and_intros <;> rfl

variable (src1_index dst_nr src0_nr src1_nr : BitVec 32)

theorem compactBits2_holds :
    Holds [(Src2Insn.src0_index_hi, truncate 3 (src0_index >>> 2)),
      (Src2Insn.src1_index, truncate 5 src1_index), (Src2Insn.dest_reg_nr, truncate 8 dst_nr),
      (Src2Insn.src0_reg_nr, truncate 8 src0_nr), (Src2Insn.src1_reg_nr, truncate 8 src1_nr)]
      (compactBits2 opcode src0_index src1_index dst_nr src0_nr src1_nr) := by
  simp only [holds_cons, holds_nil, compactBits2, nextCompact]
  simp (disch := decide) only [get_set_self, get_set_of_disjoint, and_true]
  and_intros <;> rfl

end Fields

/-! ### The fields of a native instruction -/

section Native

variable (v : Version) (s : GenInstructionState)

/-- The region that is encoded: that of a scalar has no strides. -/
def region (src : GenRegister) : BitVec 32 × BitVec 32 × BitVec 32 :=
  if s.execWidth = 1 ∧ src.width = 0 then (0, 0, 0)
  else (u32 src.hstride, u32 src.width, u32 src.vstride)

def srcFields (src : GenRegister) : List (Field × BitVec 32) :=
  [(Src.subreg_nr, truncate 5 (u32 src.subnr)), (Src.reg_nr, truncate 8 (u32 src.nr)),
    (Src.abs, truncate 1 (u32 src.absolute)), (Src.negate, truncate 1 (u32 src.negation)),
    (Src.address_mode, 0), (Src.horiz_stride, truncate 2 (region s src).1),
    (Src.width, truncate 3 (region s src).2.1), (Src.vert_stride, truncate 4 (region s src).2.2)]

/-- The fields that both generations have in the same places. -/
def commonFields (opcode : BitVec 7) (condition size cmpt : BitVec 32) :
    List (Field × BitVec 32) :=
  [(Header.opcode, truncate 7 (u32 opcode)), (Header.pad, 0), (Header.access_mode, 0),
    (Header.quarter_control, truncate 2 (u32 s.quarterControl)), (Header.thread_control, 0),
    (Header.predicate_control, truncate 4 (u32 s.predicate)), (Header.predicate_inverse, 0),
    (Header.execution_size, truncate 3 size), (Header.destreg_or_condmod, truncate 4 condition),
    (Header.acc_wr_control, truncate 1 (u32 s.accWrEnable)), (Header.cmpt_control, cmpt),
    (Header.debug_control, 0), (Header.saturate, truncate 1 (u32 s.saturate))]

def headerFields (opcode : BitVec 7) (condition size cmpt : BitVec 32) :
    List (Field × BitVec 32) :=
  match v with
  | .gen7 => (Gen7.mask_control, truncate 1 (u32 s.noMask)) :: (Gen7.dependency_control, 0) ::
      commonFields s opcode condition size cmpt
  | .gen8 => (Gen8.dependency_control, 0) :: (Gen8.nib_ctrl, 0) ::
      commonFields s opcode condition size cmpt

def bits1Fields (dst src0 : GenRegister) (src1 : Option GenRegister) (stride : BitVec 2) :
    List (Field × BitVec 32) :=
  match v with
  | .gen7 =>
    [(Gen7.dest_reg_file, truncate 2 (u32 dst.file)),
      (Gen7.dest_reg_type, truncate 3 (u32 dst.type)),
      (Gen7.src0_reg_file, truncate 2 (u32 src0.file)),
      (Gen7.src0_reg_type, truncate 3 (u32 src0.type)),
      (Gen7.src1_reg_file, truncate 2 (u32 (fileOf src1))),
      (Gen7.src1_reg_type, truncate 3 (u32 (typeOf src1))), (Gen7.nib_ctrl, 0),
      (Gen7.dest_subreg_nr, truncate 5 (u32 dst.subnr)),
      (Gen7.dest_reg_nr, truncate 8 (u32 dst.nr)),
      (Gen7.dest_horiz_stride, truncate 2 (u32 stride)),
      (Gen7.dest_address_mode, truncate 1 (u32 dst.address_mode))]
  | .gen8 =>
    [(Gen8.flag_sub_reg_nr, truncate 1 (u32 s.subFlag)),
      (Gen8.flag_reg_nr, truncate 1 (u32 s.flag)), (Gen8.mask_control, truncate 1 (u32 s.noMask)),
      (Gen8.dest_reg_file, truncate 2 (u32 dst.file)),
      (Gen8.dest_reg_type, truncate 4 (u32 dst.type)),
      (Gen8.src0_reg_file, truncate 2 (u32 src0.file)),
      (Gen8.src0_reg_type, truncate 4 (u32 src0.type)), (⟨15, 1⟩, 0),
      (Gen8.dest_subreg_nr, truncate 5 (u32 dst.subnr)),
      (Gen8.dest_reg_nr, truncate 8 (u32 dst.nr)),
      (Gen8.dest_horiz_stride, truncate 2 (u32 stride)),
      (Gen8.dest_address_mode, truncate 1 (u32 dst.address_mode))]

def bits2Fields (src0 : GenRegister) (src1 : Option GenRegister) : List (Field × BitVec 32) :=
  match v with
  | .gen7 => (Gen7.flag_sub_reg_nr, truncate 1 (u32 s.subFlag)) ::
      (Gen7.flag_reg_nr, truncate 1 (u32 s.flag)) :: (⟨27, 5⟩, 0) :: srcFields s src0
  | .gen8 => (Gen8.src1_reg_file, truncate 2 (u32 (fileOf src1))) ::
      (Gen8.src1_reg_type, truncate 4 (u32 (typeOf src1))) :: (⟨31, 1⟩, 0) :: srcFields s src0

/-- The last word: a source, a constant or nothing. -/
def Bits3 (src1 : Option GenRegister) (word : BitVec 32) : Prop :=
  match src1 with
  | none => word = 0
  | some src1 =>
    if src1.file = GEN_IMMEDIATE_VALUE then word = src1.ud
    else Holds ((⟨25, 7⟩, 0) :: srcFields s src1) word

/-- An instruction of one or two sources. -/
structure Encodes (opcode : BitVec 7) (condition size : BitVec 32) (dst src0 : GenRegister)
    (src1 : Option GenRegister) (stride : BitVec 2) (cmpt : BitVec 32) (n : Native) : Prop where
  header : Holds (headerFields v s opcode condition size cmpt) n.header
  bits1 : Holds (bits1Fields v s dst src0 src1 stride) n.bits1
  bits2 : Holds (bits2Fields v s src0 src1) n.bits2
  bits3 : Bits3 s src1 n.bits3

end Native

section Unique

variable {v : Version} {s : GenInstructionState}

theorem srcFields_covers {src : GenRegister} {x y : BitVec 32}
    (hx : Holds ((⟨25, 7⟩, 0) :: srcFields s src) x)
    (hy : Holds ((⟨25, 7⟩, 0) :: srcFields s src) y) : x = y := by
  refine Holds.unique (show Covers 32 [⟨25, 7⟩, Src.subreg_nr, Src.reg_nr, Src.abs, Src.negate,
    Src.address_mode, Src.horiz_stride, Src.width, Src.vert_stride] by decide) hx hy

/-- The fields of the first three words leave no bit out. -/
theorem fields_cover (v : Version) (opcode : BitVec 7) (condition size cmpt : BitVec 32)
    (dst src0 : GenRegister) (src1 : Option GenRegister) (stride : BitVec 2) :
    Covers 32 ((headerFields v s opcode condition size cmpt).map Prod.fst) ∧
      Covers 32 ((bits1Fields v s dst src0 src1 stride).map Prod.fst) ∧
      Covers 32 ((bits2Fields v s src0 src1).map Prod.fst) := by
  cases v <;>
  · simp only [headerFields, commonFields, bits1Fields, bits2Fields, srcFields, List.map_cons,
      List.map_nil]
    decide

/-- The description determines the instruction. -/
theorem Encodes.unique {opcode : BitVec 7} {condition size : BitVec 32} {dst src0 : GenRegister}
    {src1 : Option GenRegister} {stride : BitVec 2} {cmpt : BitVec 32} {n n' : Native}
    (h : Encodes v s opcode condition size dst src0 src1 stride cmpt n)
    (h' : Encodes v s opcode condition size dst src0 src1 stride cmpt n') : n = n' := by
  obtain ⟨h0, h1, h2⟩ := fields_cover (s := s) v opcode condition size cmpt dst src0 src1 stride
  have hheader := Holds.unique h0 h.header h'.header
  have hbits1 := Holds.unique h1 h.bits1 h'.bits1
  have hbits2 := Holds.unique h2 h.bits2 h'.bits2
  have hbits3 : n.bits3 = n'.bits3 := by
    have h3 := h.bits3
    have h3' := h'.bits3
    cases src1 with
    | none => exact h3.trans h3'.symm
    | some src1 =>
      rw [Bits3] at h3 h3'
      split at h3 <;> rename_i himm
      · rw [if_pos himm] at h3'
        exact h3.trans h3'.symm
      · rw [if_neg himm] at h3'
        exact srcFields_covers h3 h3'
  cases n
  cases n'
  simp_all

end Unique

/-! ### Sources -/

section Sources

variable {s : GenInstructionState} {size header word : BitVec 32} {src : GenRegister}

theorem truncate_size_eq_zero (hsize : executionSize s.execWidth = some size) :
    truncate 3 size = 0 ↔ s.execWidth = 1 := by
  rw [executionSize] at hsize
  split_ifs at hsize with h8 h16 h4 h1 <;> rw [Option.some_inj] at hsize <;> subst hsize
  · simp [h8]
    decide
  · simp [h16]
    decide
  · simp [h4]
    decide
  · simp only [h1, iff_true]
    decide

/-- The register and the region as the encoder sets them. -/
theorem setRegion_eq (hsize : executionSize s.execWidth = some size)
    (haccess : get Header.access_mode header = 0)
    (hexec : get Header.execution_size header = truncate 3 size) :
    setRegion header word src = set Src.vert_stride (region s src).2.2
      (set Src.width (region s src).2.1 (set Src.horiz_stride (region s src).1
        (set Src.reg_nr (u32 src.nr) (set Src.subreg_nr (u32 src.subnr) word)))) := by
  have hscalar : src.width = 0 ∧ get Header.execution_size header = 0 ↔
      s.execWidth = 1 ∧ src.width = 0 := by
    rw [hexec, truncate_size_eq_zero hsize, and_comm]
  simp only [setRegion, haccess, if_true, hscalar, region]
  split <;> rfl

/-- The register and the region leave the other fields of the word. -/
theorem get_setRegion {f : Field} (hf : f.lo + f.width ≤ 32)
    (hapart : ∀ g ∈ [Src.vert_stride, Src.width, Src.horiz_stride, Src.reg_nr, Src.subreg_nr,
      Src.subreg_nr16], f.lo + f.width ≤ g.lo ∨ g.lo + g.width ≤ f.lo) :
    get f (setRegion header word src) = get f word := by
  simp only [List.forall_mem_cons] at hapart
  obtain ⟨hv, hw, hh, hr, hs, hs16, -⟩ := hapart
  rw [setRegion]
  split_ifs <;> simp only [get_set_of_disjoint, hf, hv, hw, hh, hr, hs, hs16]

/-- A source in the form of the encoder. -/
theorem srcFields_native (hsize : executionSize s.execWidth = some size)
    (haccess : get Header.access_mode header = 0)
    (hexec : get Header.execution_size header = truncate 3 size)
    (habs : get Src.abs word = truncate 1 (u32 src.absolute))
    (hneg : get Src.negate word = truncate 1 (u32 src.negation))
    (haddr : get Src.address_mode word = 0) :
    Holds (srcFields s src) (setRegion header word src) := by
  rw [setRegion_eq hsize haccess hexec]
  simp only [srcFields, holds_cons, holds_nil]
  simp (disch := decide) only [get_set_self, get_set_of_disjoint, habs, hneg, haddr, and_true,
    true_and]
  and_intros <;> rfl

/-- The key of a source. -/
theorem srcRegBits_holds (haddr : src.address_mode = 0) :
    Holds [(SrcRegBits.src_abs, truncate 1 (u32 src.absolute)),
      (SrcRegBits.src_negate, truncate 1 (u32 src.negation)), (SrcRegBits.src_address_mode, 0),
      (SrcRegBits.src_horiz_stride, truncate 2 (region s src).1),
      (SrcRegBits.src_width, truncate 3 (region s src).2.1),
      (SrcRegBits.src_vert_stride, truncate 4 (region s src).2.2), (⟨12, 7⟩, 0)]
      (srcRegBits s src) := by
  rw [srcRegBits, region]
  simp only [haddr]
  split
  · rename_i hscalar
    simp only [holds_cons, holds_nil, hscalar.2]
    simp (disch := decide) only [get_set_self, get_set_of_disjoint, get_zero, and_true]
    and_intros <;> rfl
  · simp only [holds_cons, holds_nil]
    simp (disch := decide) only [get_set_self, get_set_of_disjoint, get_zero, and_true]
    and_intros <;> rfl

/-- A source in the form of decompaction. -/
theorem srcFields_decompact (haddr : src.address_mode = 0) (hpattern : word = srcRegBits s src) :
    Holds ((⟨25, 7⟩, 0) :: srcFields s src) (set Src.reg_nr (truncate 8 (u32 src.nr))
      (set Src.subreg_nr (truncate 5 (u32 src.subnr)) 0) ||| word <<< 13) := by
  have hkey := srcRegBits_holds haddr (s := s)
  rw [← hpattern] at hkey
  simp only [holds_cons, holds_nil, and_true] at hkey
  obtain ⟨habs, hneg, hmode, hhstride, hwidth, hvstride, hpad⟩ := hkey
  simp only [srcFields, holds_cons, holds_nil]
  simp (disch := decide) only [get_or, get_shiftLeft, get_shiftLeft_of_lt, get_set_self,
    get_set_of_disjoint, get_zero, truncate_truncate, or_zero, zero_or, and_true]
  exact ⟨hpad, rfl, rfl, habs, hneg, hmode, hhstride, hwidth, hvstride⟩

end Sources

/-! ### What the encoder emits -/

section Encoder

variable {s : GenInstructionState} {opcode : BitVec 7} {condition size : BitVec 32}
  {dst src0 : GenRegister}

/-- The header before the state is written into it. -/
def Start (opcode : BitVec 7) (condition : BitVec 32) (insn : Native) : Prop :=
  insn = next opcode ∧ condition = 0 ∨
    insn = { next opcode with
      header := set Header.destreg_or_condmod condition (next opcode).header }

theorem start_of_setCondition {allowed : List (BitVec 7)} {insn : Native}
    (h : setCondition allowed opcode condition (next opcode) = some insn) :
    Start opcode condition insn := by
  rw [setCondition] at h
  split at h
  · split at h
    · exact Or.inr (Option.some_inj.mp h).symm
    · cases h
  · rename_i hzero
    exact Or.inl ⟨(Option.some_inj.mp h).symm, not_not.mp hzero⟩

/-- The predicate is written if there is one. -/
theorem setPredicate_eq (hinv : s.inversePredicate = 0) (header : BitVec 32) :
    setPredicate s header = header ∧ s.predicate = 0 ∨
      setPredicate s header = set Header.predicate_inverse 0
        (set Header.predicate_control (u32 s.predicate) header) := by
  rw [setPredicate, hinv]
  split
  · exact Or.inr rfl
  · rename_i hzero
    exact Or.inl ⟨rfl, not_not.mp hzero⟩

theorem truncate_opcode (opcode : BitVec 7) : truncate 7 (u32 opcode) = u32 opcode := by
  refine BitVec.eq_of_getLsbD_eq fun i _ => ?_
  rw [getLsbD_truncate, BitVec.getLsbD_setWidth]
  by_cases hi : i < 7
  · simp [hi]
  · simp [BitVec.getLsbD_of_ge opcode i (by omega)]

theorem not_isSrc3_header {insn : Native} (hop : ¬ isSrc3 (u32 opcode))
    (h : Start opcode condition insn) : ¬ isSrc3 (get Header.opcode insn.header) := by
  have hget : get Header.opcode insn.header = u32 opcode := by
    rw [← truncate_opcode]
    obtain ⟨rfl, -⟩ | rfl := h
    · exact get_set_self _ _ _ _ (by decide)
    · refine (get_set_of_disjoint _ _ _ _ (by decide) (by decide)).trans ?_
      exact get_set_self _ _ _ _ (by decide)
  rwa [hget]

/-- The words of an instruction before the operands are written. -/
structure Prepared (v : Version) (s : GenInstructionState) (opcode : BitVec 7)
    (condition size : BitVec 32) (insn : Native) : Prop where
  words : match v with
    | .gen7 => insn.bits1 = set Gen7.nib_ctrl 0 0 ∧ insn.bits2 = set Gen7.flag_sub_reg_nr
        (u32 s.subFlag) (set Gen7.flag_reg_nr (u32 s.flag) 0)
    | .gen8 => insn.bits1 = set Gen8.flag_sub_reg_nr (u32 s.subFlag) (set Gen8.flag_reg_nr
        (u32 s.flag) (set Gen8.mask_control (u32 s.noMask) 0)) ∧ insn.bits2 = 0
  header : Holds (headerFields v s opcode condition size 0) insn.header
  bits3 : insn.bits3 = 0

variable {v : Version}

theorem prepared_of_setHeader (hsize : executionSize s.execWidth = some size)
    (hinv : s.inversePredicate = 0) (hnib : s.nibControl = 0) (hop : ¬ isSrc3 (u32 opcode))
    {insn n : Native} (hstart : Start opcode condition insn) (h : v.setHeader s insn = some n) :
    Prepared v s opcode condition size n := by
  have hwords : insn.bits1 = 0 ∧ insn.bits2 = 0 ∧ insn.bits3 = 0 := by
    obtain ⟨rfl, -⟩ | rfl := hstart <;> exact ⟨rfl, rfl, rfl⟩
  obtain ⟨h1, h2, h3⟩ := hwords
  cases v with
  | gen7 =>
    have hsrc3 := not_isSrc3_header hop hstart
    rw [Version.setHeader, Gen7.setHeader, hsize, Option.map_some, Option.some_inj] at h
    simp only [hsrc3, if_false, hnib] at h
    subst h
    refine ⟨⟨by rw [h1]; rfl, by rw [h2]⟩, ?_, h3⟩
    simp only [headerFields, commonFields, holds_cons, holds_nil]
    obtain ⟨hpred, hzero⟩ | hpred := setPredicate_eq hinv (set Gen7.mask_control (u32 s.noMask)
      (set Header.quarter_control (u32 s.quarterControl) (set Header.acc_wr_control
        (u32 s.accWrEnable) (set Header.execution_size size insn.header))))
    all_goals rw [hpred]
    all_goals obtain ⟨rfl, rfl⟩ | rfl := hstart
    all_goals simp (disch := decide) only [next, get_set_self, get_set_of_disjoint, get_zero,
      and_true, true_and]
    all_goals and_intros <;> first | rfl | (rw [hzero]; rfl)
  | gen8 =>
    rw [Version.setHeader, Gen8.setHeader, hsize, Option.map_some, Option.some_inj] at h
    simp only [hnib] at h
    subst h
    refine ⟨⟨by rw [h1], h2⟩, ?_, h3⟩
    simp only [headerFields, commonFields, holds_cons, holds_nil]
    obtain ⟨hpred, hzero⟩ | hpred := setPredicate_eq hinv (set Gen8.nib_ctrl (u32 (0 : BitVec 1))
      (set Header.quarter_control (u32 s.quarterControl) (set Header.acc_wr_control
        (u32 s.accWrEnable) (set Header.execution_size size insn.header))))
    all_goals rw [hpred]
    all_goals obtain ⟨rfl, rfl⟩ | rfl := hstart
    all_goals simp (disch := decide) only [next, get_set_self, get_set_of_disjoint, get_zero,
      and_true, true_and]
    all_goals and_intros <;> first | rfl | (rw [hzero]; rfl)

/-- What the header says about the sources. -/
theorem headerFields_source {cmpt header : BitVec 32}
    (h : Holds (headerFields v s opcode condition size cmpt) header) :
    get Header.access_mode header = 0 ∧ get Header.execution_size header = truncate 3 size := by
  cases v <;>
  · simp only [headerFields, commonFields, holds_cons] at h
    exact ⟨h.2.2.2.2.1, h.2.2.2.2.2.2.2.2.2.1⟩

/-- A destination and one source. -/
theorem Prepared.encodes (hsize : executionSize s.execWidth = some size)
    (hfile : src0.file ≠ GEN_IMMEDIATE_VALUE) (haddr : src0.address_mode = 0) {insn i n : Native}
    (h : Prepared v s opcode condition size insn)
    (hdst : v.setDst insn dst = some i) (hsrc : v.setSrc0 i src0 = some n) :
    Encodes v s opcode condition size dst src0 none (dstStride dst) 0 n := by
  obtain ⟨haccess, hexec⟩ := headerFields_source h.header
  obtain ⟨hwords, hheader, h3⟩ := h
  cases v with
  | gen7 =>
    rw [Version.setDst, Gen7.setDst] at hdst
    split at hdst
    · cases hdst
    rw [Option.some_inj] at hdst
    subst hdst
    rw [Version.setSrc0, Gen7.setSrc0] at hsrc
    split at hsrc
    · cases hsrc
    simp only [haddr, Option.some_inj] at hsrc
    subst hsrc
    refine ⟨hheader, ?_, ?_, h3⟩
    · simp only [bits1Fields, holds_cons, holds_nil, hwords.1]
      simp (disch := decide) only [get_set_self, get_set_of_disjoint, get_zero, and_true]
      and_intros <;> rfl
    · rw [hwords.2]
      simp only [bits2Fields, holds_cons]
      refine ⟨?_, ?_, ?_, srcFields_native hsize haccess hexec ?_ ?_ ?_⟩
      all_goals simp (disch := decide) only [get_setRegion, get_set_self,
        get_set_of_disjoint, get_zero]
      all_goals rfl
  | gen8 =>
    rw [Version.setDst, Gen8.setDst] at hdst
    split at hdst
    · cases hdst
    rw [Option.some_inj] at hdst
    subst hdst
    rw [Version.setSrc0, Gen8.setSrc0] at hsrc
    split at hsrc
    · cases hsrc
    simp only [haddr, Option.some_inj] at hsrc
    subst hsrc
    refine ⟨hheader, ?_, ?_, h3⟩
    · simp only [bits1Fields, holds_cons, holds_nil, hwords.1]
      simp (disch := decide) only [get_set_self, get_set_of_disjoint, get_zero, and_true, true_and]
      and_intros <;> rfl
    · rw [hwords.2]
      simp only [bits2Fields, holds_cons]
      refine ⟨?_, ?_, ?_, srcFields_native hsize haccess hexec ?_ ?_ ?_⟩
      all_goals simp (disch := decide) only [get_setRegion, get_set_self,
        get_set_of_disjoint, get_zero]
      all_goals rfl

/-- The last word of an instruction of two sources. -/
theorem bits3_of_setSrc1 {src1 : GenRegister} {header : BitVec 32}
    (hsize : executionSize s.execWidth = some size)
    (haccess : get Header.access_mode header = 0)
    (hexec : get Header.execution_size header = truncate 3 size)
    (hfile : src1.file ≠ GEN_IMMEDIATE_VALUE) :
    Bits3 s (some src1) (setRegion header (set Src.negate (u32 src1.negation)
      (set Src.abs (u32 src1.absolute) 0)) src1) := by
  rw [Bits3, if_neg hfile, holds_cons]
  refine ⟨?_, srcFields_native hsize haccess hexec ?_ ?_ ?_⟩
  all_goals simp (disch := decide) only [get_setRegion, get_set_self,
    get_set_of_disjoint, get_zero]
  all_goals rfl

/-- One more source. -/
theorem Encodes.src1 {src1 : GenRegister} {stride : BitVec 2} {i n : Native}
    (hsize : executionSize s.execWidth = some size)
    (h : Encodes v s opcode condition size dst src0 none stride 0 i)
    (hsrc : v.setSrc1 i src1 = some n) :
    Encodes v s opcode condition size dst src0 (some src1) stride 0 n := by
  obtain ⟨haccess, hexec⟩ := headerFields_source h.header
  obtain ⟨hheader, hbits1, hbits2, hbits3⟩ := h
  cases v with
  | gen7 =>
    have hwords : n.header = i.header ∧ n.bits1 = set Gen7.src1_reg_type (u32 src1.type)
        (set Gen7.src1_reg_file (u32 src1.file) i.bits1) ∧ n.bits2 = i.bits2 ∧
        Bits3 s (some src1) n.bits3 := by
      simp only [Version.setSrc1, Gen7.setSrc1] at hsrc
      split_ifs at hsrc with _ _ himm
      · obtain rfl := Option.some_inj.mp hsrc
        exact ⟨rfl, rfl, rfl, by rw [Bits3, if_pos himm]⟩
      · rw [Option.some_inj, show i.bits3 = 0 from hbits3] at hsrc
        subst hsrc
        exact ⟨rfl, rfl, rfl, bits3_of_setSrc1 hsize haccess hexec himm⟩
    obtain ⟨h0, h1, h2, h3⟩ := hwords
    refine ⟨by rwa [h0], ?_, by rwa [h2], h3⟩
    simp only [bits1Fields, holds_cons, holds_nil, and_true] at hbits1 ⊢
    obtain ⟨hdf, hdt, h0f, h0t, -, -, hnib, hsub, hnr, hstride, hmode⟩ := hbits1
    rw [h1]
    simp (disch := decide) only [get_set_self, get_set_of_disjoint, hdf, hdt, h0f, h0t, hnib, hsub,
      hnr, hstride, hmode, true_and, and_true]
    exact ⟨rfl, rfl⟩
  | gen8 =>
    have hwords : n.header = i.header ∧ n.bits2 = set Gen8.src1_reg_type (u32 src1.type)
        (set Gen8.src1_reg_file (u32 src1.file) i.bits2) ∧ n.bits1 = i.bits1 ∧
        Bits3 s (some src1) n.bits3 := by
      simp only [Version.setSrc1, Gen8.setSrc1] at hsrc
      split_ifs at hsrc with _ _ himm
      · obtain rfl := Option.some_inj.mp hsrc
        exact ⟨rfl, rfl, rfl, by rw [Bits3, if_pos himm]⟩
      · rw [Option.some_inj, show i.bits3 = 0 from hbits3] at hsrc
        subst hsrc
        exact ⟨rfl, rfl, rfl, bits3_of_setSrc1 hsize haccess hexec himm⟩
    obtain ⟨h0, h2, h1, h3⟩ := hwords
    refine ⟨by rwa [h0], by rw [h1]; exact hbits1, ?_, h3⟩
    simp only [bits2Fields, srcFields, holds_cons, holds_nil, and_true] at hbits2 ⊢
    obtain ⟨-, -, hpad, hsub, hnr, habs, hneg, hmode, hhs, hw, hvs⟩ := hbits2
    rw [h2]
    simp (disch := decide) only [get_set_self, get_set_of_disjoint, hpad, hsub, hnr, habs, hneg,
      hmode, hhs, hw, hvs, and_true]
    exact ⟨rfl, rfl⟩

end Encoder

/-! ### Constants -/

/-- The high bits of a number of 13 bits are copies of its sign. -/
theorem getLsbD_of_range {x : BitVec 32} (hlo : -4096 ≤ x.toInt) (hhi : x.toInt ≤ 4095) {i : ℕ}
    (hi : 12 ≤ i) (hlt : i < 32) : x.getLsbD i = x.msb := by
  have hx := x.isLt
  cases hmsb : x.msb with
  | false =>
    rw [BitVec.toInt_eq_toNat_of_msb hmsb] at hhi
    have hsmall : x.toNat < 2 ^ 12 := by omega
    exact Nat.testBit_lt_two_pow (Nat.lt_of_lt_of_le hsmall (Nat.pow_le_pow_right (by decide) hi))
  | true =>
    -- the complement is small
    have hneg : (~~~x).getLsbD i = false := by
      have hint := BitVec.toInt_eq_msb_cond x
      rw [hmsb] at hint
      simp only [if_true] at hint
      have hsmall : (~~~x).toNat < 2 ^ 12 := by
        rw [BitVec.toNat_not]
        omega
      exact Nat.testBit_lt_two_pow
        (Nat.lt_of_lt_of_le hsmall (Nat.pow_le_pow_right (by decide) hi))
    rw [BitVec.getLsbD_not] at hneg
    simpa [hlt] using hneg

theorem truncate_13 (x : BitVec 32) :
    truncate 8 (x &&& 0xff) ||| truncate 5 ((x &&& 8191) >>> 8) <<< 8 = truncate 13 x := by
  have h8 : (0xff : BitVec 32) = low 32 8 := by decide
  have h13 : (8191 : BitVec 32) = low 32 13 := by decide
  rw [h8, h13]
  refine BitVec.eq_of_getLsbD_eq fun i hi => ?_
  simp only [BitVec.getLsbD_or, BitVec.getLsbD_shiftLeft, getLsbD_truncate, BitVec.getLsbD_and,
    BitVec.getLsbD_ushiftRight, getLsbD_low, hi, decide_true, Bool.true_and]
  by_cases h : i < 8
  · simp [h, Nat.lt_trans h (by decide : 8 < 13)]
  · have hsub : 8 + (i - 8) = i := by omega
    by_cases h' : i < 13
    · simp [h, h', hsub, hi, show i - 8 < 5 by omega]
    · simp [h, h', show ¬ i - 8 < 5 by omega]

theorem and_bit12_ne_zero (y : BitVec 32) : y &&& 0x1000 ≠ 0 ↔ y.getLsbD 12 = true := by
  rw [show (0x1000 : BitVec 32) = BitVec.twoPow 32 12 by decide, BitVec.and_twoPow]
  cases y.getLsbD 12 with
  | false => simp
  | true => exact iff_of_true (by decide) rfl

theorem signExtend_13 {x : BitVec 32} (hlo : -4096 ≤ x.toInt) (hhi : x.toInt ≤ 4095) :
    (if truncate 13 x &&& 0x1000 ≠ 0 then truncate 13 x ||| 0xfffff000 else truncate 13 x) = x := by
  have hsign : ∀ i, 12 ≤ i → i < 32 → x.getLsbD i = x.msb := fun i => getLsbD_of_range hlo hhi
  have hmask : (0xfffff000 : BitVec 32) = ~~~low 32 12 := by decide
  simp only [and_bit12_ne_zero, getLsbD_truncate, show decide (12 < 13) = true from rfl,
    Bool.true_and, hsign 12 (by decide) (by decide)]
  split
  · rename_i hmsb
    refine BitVec.eq_of_getLsbD_eq fun i hi => ?_
    rw [BitVec.getLsbD_or, getLsbD_truncate, hmask, BitVec.getLsbD_not, getLsbD_low]
    by_cases h : i < 12
    · simp [h, Nat.lt_succ_of_lt h]
    · simp [h, hi, hsign i (by omega) hi, hmsb]
  · rename_i hmsb
    refine BitVec.eq_of_getLsbD_eq fun i hi => ?_
    rw [getLsbD_truncate]
    by_cases h : i < 13
    · simp [h]
    · simp [h, hsign i (by omega) hi, hmsb]

/-! ### What decompaction gives back -/

section Decompaction

variable {v : Version} {s : GenInstructionState} {opcode : BitVec 7}
  {condition size ci di si i0 i1 nr1 : BitVec 32} {dst src0 : GenRegister}
  {src1 : Option GenRegister}

/-- What is encoded for the second source: its index, or a constant in two parts. -/
def Src1Found (s : GenInstructionState) (src1 : Option GenRegister) (p : BitVec 32 × BitVec 32) :
    Prop :=
  match src1 with
  | none => p = (0, 0)
  | some src1 => compactSrc1 s src1 = some p

theorem isImmediate_iff (file : BitVec 2) :
    truncate 2 (u32 file) = u32 GEN_IMMEDIATE_VALUE ↔ file = GEN_IMMEDIATE_VALUE := by
  revert file
  decide

theorem compactSrcRegBits_eq_some {src : GenRegister} {i : BitVec 32}
    (h : compactSrcRegBits s src = some i) : src.file ≠ GEN_IMMEDIATE_VALUE ∧
      src.address_mode = 0 ∧ lookup (srcRegBits s src) srcreg_table = some i := by
  rw [compactSrcRegBits] at h
  split at h
  · cases h
  rename_i hfile
  split at h
  · cases h
  rename_i hmode
  exact ⟨hfile, not_not.mp hmode, h⟩

theorem subRegBits_holds (dst src0 : GenRegister) (src1 : Option GenRegister) : Holds [
    (SubRegBits.dest_subreg_nr, truncate 5 (u32 dst.subnr)),
    (SubRegBits.src0_subreg_nr, truncate 5 (u32 src0.subnr)),
    (SubRegBits.src1_subreg_nr, truncate 5 (u32 (subnrOf src1)))] (subRegBits dst src0 src1) := by
  simp only [subRegBits, holds_cons, holds_nil]
  simp (disch := decide) only [get_set_self, get_set_of_disjoint, and_true]
  and_intros <;> rfl

/-- The last word. -/
theorem bits3_decompact (hsrc1 : Src1Found s src1 (i1, nr1)) (b1 : BitVec 32) :
    Bits3 s src1
      (if truncate 2 (u32 (fileOf src1)) = u32 GEN_IMMEDIATE_VALUE then
        immediate ⟨b1, compactBits2 opcode i0 i1 (u32 dst.nr) (u32 src0.nr) nr1⟩
      else decompactSrc1 ⟨b1, compactBits2 opcode i0 i1 (u32 dst.nr) (u32 src0.nr) nr1⟩
        (subRegBits dst src0 src1)) := by
  have hcompact := compactBits2_holds opcode i0 i1 (u32 dst.nr) (u32 src0.nr) nr1
  have hsubreg := subRegBits_holds dst src0 src1
  simp only [holds_cons, holds_nil, and_true] at hcompact hsubreg
  obtain ⟨-, hindex, -, -, hnr⟩ := hcompact
  obtain ⟨-, -, hsub⟩ := hsubreg
  simp only [isImmediate_iff, immediate, decompactSrc1, hindex, hnr, hsub]
  cases src1 with
  | none =>
    obtain ⟨rfl, rfl⟩ := Prod.mk.inj hsrc1
    show (_ : BitVec 32) = 0
    decide
  | some src1 =>
    simp only [Src1Found, compactSrc1] at hsrc1
    simp only [Bits3, fileOf, subnrOf, Option.map_some, Option.getD_some]
    split at hsrc1
    · rename_i himm
      split at hsrc1
      · cases hsrc1
      split at hsrc1
      · cases hsrc1
      rename_i hrange
      simp only [Option.some.injEq, Prod.mk.injEq] at hsrc1
      obtain ⟨rfl, rfl⟩ := hsrc1
      simp only [himm, if_true, truncate_13]
      exact signExtend_13 (by omega) (by omega)
    · rename_i hfile
      obtain ⟨i, hi, hpair⟩ := Option.map_eq_some_iff.mp hsrc1
      obtain ⟨rfl, rfl⟩ := Prod.mk.inj hpair
      obtain ⟨-, hmode, hlookup⟩ := compactSrcRegBits_eq_some hi
      simp only [hfile, if_false]
      exact srcFields_decompact hmode (tables_invert.srcReg.patternAt_eq hlookup)

theorem controlBits_holds (s : GenInstructionState) (size : BitVec 32) : Holds [
    (ControlBits.access_mode, 0),
    (ControlBits.mask_control, truncate 1 (u32 s.noMask)), (ControlBits.dependency_control, 0),
    (ControlBits.quarter_control, truncate 2 (u32 s.quarterControl)),
    (ControlBits.thread_control, 0), (ControlBits.predicate_control, truncate 4 (u32 s.predicate)),
    (ControlBits.predicate_inverse, truncate 1 (u32 s.inversePredicate)),
    (ControlBits.execution_size, truncate 3 size),
    (ControlBits.saturate, truncate 1 (u32 s.saturate)),
    (ControlBits.flag_sub_reg_nr, truncate 1 (u32 s.subFlag)),
    (ControlBits.flag_reg_nr, truncate 1 (u32 s.flag))]
    (controlBits s (u32 s.quarterControl) size) := by
  simp only [controlBits, holds_cons, holds_nil]
  simp (disch := decide) only [get_set_self, get_set_of_disjoint, get_zero, and_true, true_and]
  and_intros <;> rfl

theorem dataTypeBits_holds (dst src0 : GenRegister) (src1 : Option GenRegister) : Holds [
    (DataTypeBits.dest_reg_file, truncate 2 (u32 dst.file)),
    (DataTypeBits.dest_reg_type, truncate 3 (u32 dst.type)),
    (DataTypeBits.src0_reg_file, truncate 2 (u32 src0.file)),
    (DataTypeBits.src0_reg_type, truncate 3 (u32 src0.type)),
    (DataTypeBits.src1_reg_file, truncate 2 (u32 (fileOf src1))),
    (DataTypeBits.src1_reg_type, truncate 3 (u32 (typeOf src1))),
    (DataTypeBits.dest_horiz_stride, truncate 2 (u32 (keyStride dst))),
    (DataTypeBits.dest_address_mode, truncate 1 (u32 dst.address_mode))]
    (dataTypeBits dst src0 src1) := by
  simp only [dataTypeBits, holds_cons, holds_nil]
  simp (disch := decide) only [get_set_self, get_set_of_disjoint, and_true]
  and_intros <;> rfl

theorem gen8DataTypeBits_holds (dst src0 : GenRegister) (src1 : Option GenRegister) : Holds [
    (Gen8DataTypeBits.dest_reg_file, truncate 2 (u32 dst.file)),
    (Gen8DataTypeBits.dest_reg_type, truncate 4 (u32 dst.type)),
    (Gen8DataTypeBits.src0_reg_file, truncate 2 (u32 src0.file)),
    (Gen8DataTypeBits.src0_reg_type, truncate 4 (u32 src0.type)),
    (Gen8DataTypeBits.src1_reg_file, truncate 2 (u32 (fileOf src1))),
    (Gen8DataTypeBits.src1_reg_type, truncate 4 (u32 (typeOf src1))),
    (Gen8DataTypeBits.dest_horiz_stride, truncate 2 (u32 (keyStride dst))),
    (Gen8DataTypeBits.dest_address_mode, truncate 1 (u32 dst.address_mode))]
    (gen8DataTypeBits dst src0 src1) := by
  simp only [gen8DataTypeBits, holds_cons, holds_nil]
  simp (disch := decide) only [get_set_self, get_set_of_disjoint, and_true]
  and_intros <;> rfl

/-- The indices of a compact instruction lead back to its keys. -/
structure Found (v : Version) (s : GenInstructionState) (size : BitVec 32) (dst src0 : GenRegister)
    (src1 : Option GenRegister) (ci di si i0 i1 nr1 : BitVec 32) : Prop where
  control : patternAt control_table (truncate 5 ci) = controlBits s (u32 s.quarterControl) size
  dataType : match v with
    | .gen7 => patternAt data_type_decompact (truncate 5 di) = dataTypeBits dst src0 src1
    | .gen8 => patternAt gen8_data_type_table (truncate 5 di) = gen8DataTypeBits dst src0 src1
  subReg : patternAt subreg_table (truncate 5 si) = subRegBits dst src0 src1
  src0Reg : patternAt srcreg_table (truncate 2 (i0 &&& 3) ||| truncate 3 (i0 >>> 2) <<< 2) =
    srcRegBits s src0
  mode0 : src0.address_mode = 0
  src1Reg : Src1Found s src1 (i1, nr1)
  inverse : s.inversePredicate = 0

/-- Decompaction gives the instruction back, with the stride of the key. -/
theorem decompact_encodes (condition : BitVec 32) (hopcode : ¬ isSrc3 (u32 opcode))
    (h : Found v s size dst src0 src1 ci di si i0 i1 nr1) :
    ∃ d, decompactInstruction ⟨compactBits1 s opcode condition ci di si i0,
        compactBits2 opcode i0 i1 (u32 dst.nr) (u32 src0.nr) nr1⟩ v = some d ∧
      Encodes v s opcode condition size dst src0 src1 (keyStride dst) 1 d := by
  obtain ⟨hcontrol, hdata, hsubreg, hsrc0, hmode, hsrc1, hinv⟩ := h
  have hb1 := compactBits1_holds s opcode condition ci di si i0
  have hb2 := compactBits2_holds opcode i0 i1 (u32 dst.nr) (u32 src0.nr) nr1
  have hctl := controlBits_holds s size
  have hsub := subRegBits_holds dst src0 src1
  have hword := srcFields_decompact hmode (s := s) rfl
  simp only [holds_cons, srcFields, holds_nil, and_true] at hb1 hb2 hctl hsub hword
  obtain ⟨hop, hdebug, hci, hdi, hsi, hacc, hcond, hcmpt, hlo⟩ := hb1
  obtain ⟨hhi, -, hdnr, hs0nr, -⟩ := hb2
  obtain ⟨caccess, cmask, cdep, cquarter, cthread, cpred, cinv, cexec, csat, csub, cflag⟩ := hctl
  obtain ⟨hdsub, hssub, -⟩ := hsub
  obtain ⟨hpad, hsnr, hnr, habs, hneg, haddr, hhs, hwidth, hvs⟩ := hword
  rw [hinv] at cinv
  rw [← truncate_opcode, ← hop] at hopcode
  cases v with
  | gen7 =>
    refine ⟨_, by rw [decompactInstruction, if_neg hopcode], ?_⟩
    have hdata : patternAt data_type_decompact (truncate 5 di) = dataTypeBits dst src0 src1 := hdata
    have hdt := dataTypeBits_holds dst src0 src1
    simp only [holds_cons, holds_nil, and_true] at hdt
    obtain ⟨ddf, ddt, d0f, d0t, d1f, d1t, dstride, dmode⟩ := hdt
    have hlow16 : (0xffff : BitVec 32) = low 32 16 := by decide
    have hlow15 : (0x7fff : BitVec 32) = low 32 15 := by decide
    simp only [decompactGen7, src0Index, hop, hdebug, hci, hdi, hsi, hacc, hcond, hcmpt, hlo, hhi,
      hdnr, hs0nr, hcontrol, hdata, hsubreg, hsrc0, hdsub, hssub, csat, csub, cflag, dstride,
      dmode, hlow16, hlow15]
    refine ⟨?_, ?_, ?_, ?_⟩
    · simp only [headerFields, commonFields, holds_cons, holds_nil]
      simp (disch := decide) only [get_or, get_shiftLeft, get_shiftLeft_of_lt, get_and_low,
        get_set_self, get_set_of_disjoint, get_truncate, get_truncate_of_ge,
        truncate_truncate, or_zero, zero_or, and_true, true_and]
      exact ⟨cmask, cdep, rfl, caccess, cquarter, cthread, cpred, cinv, cexec, rfl, rfl, rfl, rfl,
        rfl⟩
    · simp only [bits1Fields, holds_cons, holds_nil]
      simp (disch := decide) only [get_and_low, get_and_low_of_ge, get_set_self,
        get_set_of_disjoint, truncate_truncate, zero_or, and_true, true_and]
      exact ⟨ddf, ddt, d0f, d0t, d1f, d1t, rfl, rfl, rfl, rfl⟩
    · simp only [bits2Fields, srcFields, holds_cons, holds_nil]
      simp (disch := decide) only [get_set_self, get_set_of_disjoint, hsnr, hnr, habs, hneg, haddr,
        hhs, hwidth, hvs, truncate_truncate, and_true]
      exact ⟨rfl, rfl, get_eq_zero_of_subfield hpad (by decide)⟩
    · rw [d1f]
      exact bits3_decompact hsrc1 _
  | gen8 =>
    refine ⟨_, by rw [decompactInstruction, if_neg hopcode], ?_⟩
    have hdata : patternAt gen8_data_type_table (truncate 5 di) =
      gen8DataTypeBits dst src0 src1 := hdata
    have hdt := gen8DataTypeBits_holds dst src0 src1
    simp only [holds_cons, holds_nil, and_true] at hdt
    obtain ⟨ddf, ddt, d0f, d0t, d1f, d1t, dstride, dmode⟩ := hdt
    simp only [decompactGen8, src0Index, hop, hdebug, hci, hdi, hsi, hacc, hcond, hcmpt, hlo, hhi,
      hdnr, hs0nr, hcontrol, hdata, hsubreg, hsrc0, hdsub, hssub, caccess, cmask, cdep, cquarter,
      cthread, cpred, cinv, cexec, csat, csub, cflag, ddf, ddt, d0f, d0t, d1f, d1t, dstride, dmode]
    refine ⟨?_, ?_, ?_, bits3_decompact hsrc1 _⟩
    · simp only [headerFields, commonFields, holds_cons, holds_nil]
      simp (disch := decide) only [get_set_self, get_set_of_disjoint, truncate_truncate, get_zero,
        and_true, true_and]
      and_intros <;> rfl
    · simp only [bits1Fields, holds_cons, holds_nil]
      simp (disch := decide) only [get_set_self, get_set_of_disjoint, truncate_truncate, get_zero,
        and_true, true_and]
      and_intros <;> rfl
    · simp only [bits2Fields, srcFields, holds_cons, holds_nil]
      simp (disch := decide) only [get_set_self, get_set_of_disjoint, hsnr, hnr, habs, hneg, haddr,
        hhs, hwidth, hvs, truncate_truncate, and_true]
      exact ⟨rfl, rfl, get_eq_zero_of_subfield hpad (by decide)⟩

end Decompaction

end Compact
