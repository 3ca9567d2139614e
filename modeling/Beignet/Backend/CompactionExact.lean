/-
Which instructions come back from compaction.

The calls of the encoder that try to compact an instruction are `alu1`, `alu2`, `CMP` and,
in the eighth generation, `alu3`.  A destination of stride 0 is looked up as one of stride
1, where the encoder gives bytes and words the strides 4 and 2; the compact form of three
sources has no place for the accumulator write and for the subregister of the destination.

* `alu_exact`, `alu3_exact` — the forms of two and of three sources;
* `decompact_iff` — all calls.
-/
import Beignet.Backend.CompactionRoundTrip

namespace Compact

open BitFields

/-! ### Calls -/

/-- An opcode of one or two sources. -/
abbrev Src2Opcode := { opcode : BitVec 7 // ¬ isSrc3 (u32 opcode) }

/-- A call of the encoder that tries to compact its instruction. -/
inductive Call
  | alu1 (opcode : Src2Opcode) (dst src : GenRegister) (condition : BitVec 32)
  | alu2 (opcode : Src2Opcode) (dst src0 src1 : GenRegister) (condition : BitVec 32)
  | cmp (dst src0 src1 : GenRegister) (conditional : BitVec 32)
  | alu3 (opcode : BitVec 7) (dst src0 src1 src2 : GenRegister)

/-- The compact instruction. -/
def Call.compact (v : Version) (s : GenInstructionState) : Call → Option CompactInsn
  | alu1 opcode dst src condition => compactAlu1 v s opcode dst src condition false
  | alu2 opcode dst src0 src1 condition => compactAlu2 v s opcode dst src0 src1 condition false
  | cmp dst src0 src1 conditional =>
    if isNull dst then none else compactAlu2 v s GEN_OPCODE_CMP dst src0 src1 conditional false
  | alu3 opcode dst src0 src1 src2 => compactAlu3 v s opcode dst src0 src1 src2

/-- The instruction that is emitted if compaction is refused.  The seventh generation does
not compact three sources. -/
def Call.native (v : Version) (s : GenInstructionState) : Call → Option Native
  | alu1 opcode dst src condition => Compact.alu1 v s opcode dst src condition
  | alu2 opcode dst src0 src1 condition => Compact.alu2 v s opcode dst src0 src1 condition
  | cmp dst src0 src1 conditional => Compact.cmp v s dst src0 src1 conditional
  | alu3 opcode dst src0 src1 src2 =>
    if v = .gen8 then Gen8.alu3 s opcode dst src0 src1 src2 else none

/-- The instruction with the mark of a compact one. -/
def compacted (n : Native) : Native := { n with header := set Header.cmpt_control 1 n.header }

/-- The stride of the destination is the one that is looked up. -/
def StrideKept (dst : GenRegister) : Prop :=
  ¬ (dst.hstride = 0 ∧ (dst.type = GEN_TYPE_UB ∨ dst.type = GEN_TYPE_B ∨
    dst.type = GEN_TYPE_UW ∨ dst.type = GEN_TYPE_W))

/-- The compact form has a place for all that is encoded. -/
def Call.Regular (s : GenInstructionState) : Call → Prop
  | alu1 _ dst _ _ => StrideKept dst
  | alu2 _ dst _ _ _ => StrideKept dst
  | cmp dst _ _ _ => StrideKept dst
  | alu3 _ dst _ _ _ => s.accWrEnable = 0 ∧ dst.subnr.toNat / 4 % 8 = 0

theorem keyStride_eq_iff (dst : GenRegister) : keyStride dst = dstStride dst ↔ StrideKept dst := by
  rw [keyStride, dstStride, StrideKept]
  by_cases h0 : dst.hstride = 0
  · simp only [h0, if_true, true_and]
    split_ifs with hb hw
    · rcases hb with hb | hb <;> simp [hb]
    · rcases hw with hw | hw <;> simp [hw]
    · simp only [not_or] at hb hw
      simp [hb, hw]
  · simp only [h0, if_false, false_and, not_false_eq_true]

/-! ### One and two sources -/

section Alu

variable {v : Version} {s : GenInstructionState} {opcode : BitVec 7}
  {condition size ci di si i0 i1 nr1 : BitVec 32} {dst src0 : GenRegister}
  {src1 : Option GenRegister}

theorem compactControlBits_eq_some
    (h : compactControlBits s (u32 s.quarterControl) s.execWidth = some ci) :
    s.nibControl = 0 ∧ s.inversePredicate = 0 ∧ ∃ size, executionSize s.execWidth = some size ∧
      patternAt control_table (truncate 5 ci) = controlBits s (u32 s.quarterControl) size := by
  rw [compactControlBits] at h
  split at h
  · cases h
  rename_i hnib
  split at h
  · cases h
  split at h
  · cases h
  obtain ⟨size, hsize, hlookup⟩ := Option.bind_eq_some_iff.mp h
  refine ⟨not_not.mp hnib, ?_, size, hsize, tables_invert.control.patternAt_eq hlookup⟩
  -- the pattern that was found does not invert
  obtain ⟨e, he, hkey, -⟩ := lookup_eq_some hlookup
  have hctl := controlBits_holds s size
  simp only [holds_cons] at hctl
  have hinv := hctl.2.2.2.2.2.2.1
  rw [← hkey, control_table_predicate_inverse e he] at hinv
  generalize s.inversePredicate = x at hinv
  revert x
  decide

theorem found_of_compact
    (hc : compactControlBits s (u32 s.quarterControl) s.execWidth = some ci)
    (hd : compactDataTypeBits v dst src0 src1 = some di)
    (hs : compactSubRegBits dst src0 src1 = some si) (h0 : compactSrcRegBits s src0 = some i0)
    (h1 : Src1Found s src1 (i1, nr1)) :
    s.nibControl = 0 ∧ s.inversePredicate = 0 ∧ src0.file ≠ GEN_IMMEDIATE_VALUE ∧
      src0.address_mode = 0 ∧ ∃ size, executionSize s.execWidth = some size ∧
        Found v s size dst src0 src1 ci di si i0 i1 nr1 := by
  obtain ⟨hnib, hinv, size, hsize, hcontrol⟩ := compactControlBits_eq_some hc
  obtain ⟨hfile, hmode, hsrc0⟩ := compactSrcRegBits_eq_some h0
  refine ⟨hnib, hinv, hfile, hmode, size, hsize, hcontrol, ?_,
    tables_invert.subReg.patternAt_eq hs, tables_invert.srcRegParts.patternAt_eq hsrc0, hmode, h1,
    hinv⟩
  cases v with
  | gen7 =>
    simp only [compactDataTypeBits, if_neg hfile] at hd
    split at hd
    · cases hd
    · exact tables_invert.dataType.patternAt_eq hd
  | gen8 =>
    simp only [compactDataTypeBits, if_neg hfile] at hd
    split at hd
    · cases hd
    · exact tables_invert.gen8DataType.patternAt_eq hd

theorem found_of_compactAlu2 {src1 : GenRegister} {p : CompactInsn}
    (hp : compactAlu2 v s opcode dst src0 src1 condition false = some p) :
    ∃ ci di si i0 i1 nr1 size, s.nibControl = 0 ∧ s.inversePredicate = 0 ∧
      src0.file ≠ GEN_IMMEDIATE_VALUE ∧ src0.address_mode = 0 ∧
      executionSize s.execWidth = some size ∧
      Found v s size dst src0 (some src1) ci di si i0 i1 nr1 ∧
      p = ⟨compactBits1 s opcode condition ci di si i0,
        compactBits2 opcode i0 i1 (u32 dst.nr) (u32 src0.nr) nr1⟩ := by
  simp only [compactAlu2, Bool.false_eq_true, if_false] at hp
  split at hp
  · cases hp
  obtain ⟨ci, hci, hp⟩ := Option.bind_eq_some_iff.mp hp
  obtain ⟨di, hdi, hp⟩ := Option.bind_eq_some_iff.mp hp
  obtain ⟨si, hsi, hp⟩ := Option.bind_eq_some_iff.mp hp
  obtain ⟨i0, hi0, hp⟩ := Option.bind_eq_some_iff.mp hp
  obtain ⟨⟨i1, nr1⟩, hi1, hp⟩ := Option.map_eq_some_iff.mp hp
  obtain ⟨hnib, hinv, hfile, hmode, size, hsize, hfound⟩ :=
    found_of_compact hci hdi hsi hi0 (show Src1Found s (some src1) (i1, nr1) from hi1)
  exact ⟨ci, di, si, i0, i1, nr1, size, hnib, hinv, hfile, hmode, hsize, hfound, hp.symm⟩

/-- A native instruction that is marked as compact. -/
theorem Encodes.compacted {stride : BitVec 2} {cmpt : BitVec 32} {n : Native}
    (h : Encodes v s opcode condition size dst src0 src1 stride cmpt n) :
    Encodes v s opcode condition size dst src0 src1 stride 1 (compacted n) := by
  refine ⟨?_, h.bits1, h.bits2, h.bits3⟩
  have hheader := h.header
  cases v <;>
  · simp only [headerFields, commonFields, holds_cons, holds_nil, and_true, Compact.compacted]
      at hheader ⊢
    obtain ⟨h1, h2, h3, h4, h5, h6, h7, h8, h9, h10, h11, h12, -, h14, h15⟩ := hheader
    simp (disch := decide) only [get_set_self, get_set_of_disjoint, h1, h2, h3, h4, h5, h6, h7, h8,
      h9, h10, h11, h12, h14, h15, and_true, true_and]
    rfl

theorem Encodes.cmpt {stride : BitVec 2} {cmpt : BitVec 32} {n : Native}
    (h : Encodes v s opcode condition size dst src0 src1 stride cmpt n) :
    get Header.cmpt_control n.header = cmpt := by
  have hheader := h.header
  cases v <;>
  · simp only [headerFields, commonFields, holds_cons] at hheader
    exact hheader.2.2.2.2.2.2.2.2.2.2.2.2.1

theorem Encodes.stride_inj {stride stride' : BitVec 2} {cmpt cmpt' : BitVec 32} {n : Native}
    (h : Encodes v s opcode condition size dst src0 src1 stride cmpt n)
    (h' : Encodes v s opcode condition size dst src0 src1 stride' cmpt' n) :
    stride = stride' := by
  have hstride : truncate 2 (u32 stride) = truncate 2 (u32 stride') := by
    have h1 := h.bits1
    have h1' := h'.bits1
    cases v with
    | gen7 =>
      simp only [bits1Fields, holds_cons] at h1 h1'
      exact h1.2.2.2.2.2.2.2.2.2.1.symm.trans h1'.2.2.2.2.2.2.2.2.2.1
    | gen8 =>
      simp only [bits1Fields, holds_cons] at h1 h1'
      exact h1.2.2.2.2.2.2.2.2.2.2.1.symm.trans h1'.2.2.2.2.2.2.2.2.2.2.1
  have hinj : ∀ a b : BitVec 2, truncate 2 (u32 a) = truncate 2 (u32 b) → a = b := by decide
  exact hinj _ _ hstride

/-- An instruction of one or two sources comes back with the mark of a compact one, and
otherwise as it was exactly when its stride is kept. -/
theorem alu_exact (hop : ¬ isSrc3 (u32 opcode)) {n : Native}
    (hfound : Found v s size dst src0 src1 ci di si i0 i1 nr1)
    (h : Encodes v s opcode condition size dst src0 src1 (dstStride dst) 0 n) {p : CompactInsn}
    (hp : p = ⟨compactBits1 s opcode condition ci di si i0,
      compactBits2 opcode i0 i1 (u32 dst.nr) (u32 src0.nr) nr1⟩) :
    decompactInstruction p v ≠ some n ∧
      (decompactInstruction p v = some (compacted n) ↔ StrideKept dst) := by
  obtain ⟨d, hd, hencodes⟩ := decompact_encodes condition hop hfound
  rw [← hp] at hd
  rw [hd, ← keyStride_eq_iff, ne_eq, Option.some_inj, Option.some_inj]
  refine ⟨fun heq => ?_, fun heq => ?_, fun hstride => ?_⟩
  · have hcmpt := hencodes.cmpt
    rw [heq, h.cmpt] at hcmpt
    exact absurd hcmpt (by decide)
  · rw [heq] at hencodes
    exact hencodes.stride_inj h.compacted
  · rw [hstride] at hencodes
    exact hencodes.unique h.compacted

/-- The instruction that the encoder emits for one source. -/
theorem alu1_encodes {src : GenRegister} {n : Native} (hop : ¬ isSrc3 (u32 opcode))
    (hsize : executionSize s.execWidth = some size) (hnib : s.nibControl = 0)
    (hinv : s.inversePredicate = 0) (hfile : src.file ≠ GEN_IMMEDIATE_VALUE)
    (hmode : src.address_mode = 0) (h : alu1 v s opcode dst src condition = some n) :
    Encodes v s opcode condition size dst src none (dstStride dst) 0 n := by
  obtain ⟨insn, hcond, h⟩ := Option.bind_eq_some_iff.mp h
  obtain ⟨insn', hheader, h⟩ := Option.bind_eq_some_iff.mp h
  obtain ⟨insn'', hdst, hsrc⟩ := Option.bind_eq_some_iff.mp h
  have hstart := start_of_setCondition hcond
  exact (prepared_of_setHeader hsize hinv hnib hop hstart hheader).encodes hsize hfile hmode hdst
    hsrc

/-- Two sources. -/
theorem alu2_encodes {src1 : GenRegister} {n : Native} (hop : ¬ isSrc3 (u32 opcode))
    (hsize : executionSize s.execWidth = some size) (hnib : s.nibControl = 0)
    (hinv : s.inversePredicate = 0) (hfile : src0.file ≠ GEN_IMMEDIATE_VALUE)
    (hmode : src0.address_mode = 0) (h : alu2 v s opcode dst src0 src1 condition = some n) :
    Encodes v s opcode condition size dst src0 (some src1) (dstStride dst) 0 n := by
  obtain ⟨insn, hcond, h⟩ := Option.bind_eq_some_iff.mp h
  obtain ⟨insn', hheader, h⟩ := Option.bind_eq_some_iff.mp h
  obtain ⟨insn'', hdst, h⟩ := Option.bind_eq_some_iff.mp h
  obtain ⟨i, hsrc0, hsrc1⟩ := Option.bind_eq_some_iff.mp h
  have hstart := start_of_setCondition hcond
  exact ((prepared_of_setHeader hsize hinv hnib hop hstart hheader).encodes hsize hfile hmode hdst
    hsrc0).src1 hsize hsrc1

/-- The condition of a comparison is written behind the header. -/
theorem headerFields_condition {header : BitVec 32} (conditional : BitVec 32)
    (h : Holds (headerFields v s opcode condition size 0) header) :
    Holds (headerFields v s opcode conditional size 0)
      (set Header.destreg_or_condmod conditional header) := by
  cases v <;>
  · simp only [headerFields, commonFields, holds_cons, holds_nil, and_true] at h ⊢
    obtain ⟨h1, h2, h3, h4, h5, h6, h7, h8, h9, h10, -, h12, h13, h14, h15⟩ := h
    simp (disch := decide) only [get_set_self, get_set_of_disjoint, h1, h2, h3, h4, h5, h6, h7, h8,
      h9, h10, h12, h13, h14, h15, and_true, true_and]
    rfl

/-- A comparison. -/
theorem cmp_encodes {src1 : GenRegister} {n : Native} (hnull : ¬ isNull dst)
    (hsize : executionSize s.execWidth = some size) (hnib : s.nibControl = 0)
    (hinv : s.inversePredicate = 0) (hfile : src0.file ≠ GEN_IMMEDIATE_VALUE)
    (hmode : src0.address_mode = 0) (h : cmp v s dst src0 src1 condition = some n) :
    Encodes v s GEN_OPCODE_CMP condition size dst src0 (some src1) (dstStride dst) 0 n := by
  obtain ⟨insn, hheader, h⟩ := Option.bind_eq_some_iff.mp h
  simp only [if_neg hnull] at h
  obtain ⟨insn', hdst, h⟩ := Option.bind_eq_some_iff.mp h
  obtain ⟨i, hsrc0, hsrc1⟩ := Option.bind_eq_some_iff.mp h
  have hstart : Start GEN_OPCODE_CMP 0 (next GEN_OPCODE_CMP) := Or.inl ⟨rfl, rfl⟩
  have hop : ¬ isSrc3 (u32 GEN_OPCODE_CMP) := by decide
  obtain ⟨hwords, hfields, hbits3⟩ := prepared_of_setHeader hsize hinv hnib hop hstart hheader
  have hprepared : Prepared v s GEN_OPCODE_CMP condition size
      { insn with header := set Header.destreg_or_condmod condition insn.header } :=
    ⟨hwords, headerFields_condition condition hfields, hbits3⟩
  exact (hprepared.encodes hsize hfile hmode hdst hsrc0).src1 hsize hsrc1

end Alu

/-! ### Three sources -/

section Alu3

variable {s : GenInstructionState} {opcode : BitVec 7} {size ci : BitVec 32}
  {dst src0 src1 src2 : GenRegister}

/-- The words of an instruction of three sources.  `acc`, `sub` and `cmpt` are the bits in
which the two forms may differ. -/
structure Encodes3 (s : GenInstructionState) (opcode : BitVec 7) (size : BitVec 32)
    (dst src0 src1 src2 : GenRegister) (acc sub cmpt : BitVec 32) (n : Native) : Prop where
  header : Holds [(Gen8.dependency_control, 0), (Gen8.nib_ctrl, 0),
    (Header.opcode, truncate 7 (u32 opcode)), (Header.pad, 0), (Header.access_mode, 1),
    (Header.quarter_control, truncate 2 (u32 s.quarterControl)), (Header.thread_control, 0),
    (Header.predicate_control, 0), (Header.predicate_inverse, 0),
    (Header.execution_size, truncate 3 size), (Header.destreg_or_condmod, 0),
    (Header.acc_wr_control, acc), (Header.cmpt_control, cmpt), (Header.debug_control, 0),
    (Header.saturate, truncate 1 (u32 s.saturate))] n.header
  bits1 : Holds [(Gen8.flag_sub_reg_nr, 0), (Gen8.flag_reg_nr, 0),
    (Gen8.mask_control, truncate 1 (u32 s.noMask)), (Gen8.Da3src.src1_type, 0),
    (Gen8.Da3src.src2_type, 0), (Gen8.Da3src.src0_abs, 0),
    (Gen8.Da3src.src0_negate, u32 src0.negation), (Gen8.Da3src.src1_abs, 0),
    (Gen8.Da3src.src1_negate, u32 src1.negation), (Gen8.Da3src.src2_abs, 0),
    (Gen8.Da3src.src2_negate, u32 src2.negation), (Gen8.Da3src.src_type, 0),
    (Gen8.Da3src.dest_type, 0), (Gen8.Da3src.dest_writemask, 15),
    (Gen8.Da3src.dest_subreg_nr, sub), (Gen8.Da3src.dest_reg_nr, truncate 7 (u32 dst.nr))] n.bits1
  bits2 : Holds [(Gen8.Da3src.src0_rep_ctrl, truncate 1 (Gen8.repCtrl src0)),
    (Gen8.Da3src.src0_swizzle, truncate 8 Gen8.NO_SWIZZLE),
    (Gen8.Da3src.src0_subreg_nr, truncate 3 (u32 src0.subnr / 4)),
    (Gen8.Da3src.src0_reg_nr, truncate 7 (u32 src0.nr)), (⟨20, 1⟩, 0),
    (Gen8.Da3src.src1_rep_ctrl, truncate 1 (Gen8.repCtrl src1)),
    (Gen8.Da3src.src1_swizzle, truncate 8 Gen8.NO_SWIZZLE),
    (Gen8.Da3src.src1_subreg_nr_low, truncate 2 (u32 src1.subnr / 4))] n.bits2
  bits3 : Holds [(Gen8.Da3src.src1_subreg_nr_high, truncate 1 ((u32 src1.subnr / 4) >>> 2)),
    (Gen8.Da3src.src1_reg_nr, truncate 7 (u32 src1.nr)), (⟨9, 1⟩, 0),
    (Gen8.Da3src.src2_rep_ctrl, truncate 1 (Gen8.repCtrl src2)),
    (Gen8.Da3src.src2_swizzle, truncate 8 Gen8.NO_SWIZZLE),
    (Gen8.Da3src.src2_subreg_nr, truncate 3 (u32 src2.subnr / 4)),
    (Gen8.Da3src.src2_reg_nr, truncate 7 (u32 src2.nr)), (⟨30, 2⟩, 0)] n.bits3

theorem Encodes3.unique {acc sub cmpt : BitVec 32} {n n' : Native}
    (h : Encodes3 s opcode size dst src0 src1 src2 acc sub cmpt n)
    (h' : Encodes3 s opcode size dst src0 src1 src2 acc sub cmpt n') : n = n' := by
  have hheader : n.header = n'.header := by
    refine Holds.unique (show Covers 32 [Gen8.dependency_control, Gen8.nib_ctrl, Header.opcode,
      Header.pad, Header.access_mode, Header.quarter_control, Header.thread_control,
      Header.predicate_control, Header.predicate_inverse, Header.execution_size,
      Header.destreg_or_condmod, Header.acc_wr_control, Header.cmpt_control,
      Header.debug_control, Header.saturate] by decide) h.header h'.header
  have hbits1 : n.bits1 = n'.bits1 := by
    refine Holds.unique (show Covers 32 [Gen8.flag_sub_reg_nr, Gen8.flag_reg_nr,
      Gen8.mask_control, Gen8.Da3src.src1_type, Gen8.Da3src.src2_type, Gen8.Da3src.src0_abs,
      Gen8.Da3src.src0_negate, Gen8.Da3src.src1_abs, Gen8.Da3src.src1_negate,
      Gen8.Da3src.src2_abs, Gen8.Da3src.src2_negate, Gen8.Da3src.src_type, Gen8.Da3src.dest_type,
      Gen8.Da3src.dest_writemask, Gen8.Da3src.dest_subreg_nr, Gen8.Da3src.dest_reg_nr]
      by decide) h.bits1 h'.bits1
  have hbits2 : n.bits2 = n'.bits2 := by
    refine Holds.unique (show Covers 32 [Gen8.Da3src.src0_rep_ctrl, Gen8.Da3src.src0_swizzle,
      Gen8.Da3src.src0_subreg_nr, Gen8.Da3src.src0_reg_nr, ⟨20, 1⟩, Gen8.Da3src.src1_rep_ctrl,
      Gen8.Da3src.src1_swizzle, Gen8.Da3src.src1_subreg_nr_low] by decide) h.bits2 h'.bits2
  have hbits3 : n.bits3 = n'.bits3 := by
    refine Holds.unique (show Covers 32 [Gen8.Da3src.src1_subreg_nr_high, Gen8.Da3src.src1_reg_nr,
      ⟨9, 1⟩, Gen8.Da3src.src2_rep_ctrl, Gen8.Da3src.src2_swizzle, Gen8.Da3src.src2_subreg_nr,
      Gen8.Da3src.src2_reg_nr, ⟨30, 2⟩] by decide) h.bits3 h'.bits3
  cases n
  cases n'
  simp_all

theorem Encodes3.compacted {acc sub cmpt : BitVec 32} {n : Native}
    (h : Encodes3 s opcode size dst src0 src1 src2 acc sub cmpt n) :
    Encodes3 s opcode size dst src0 src1 src2 acc sub 1 (compacted n) := by
  refine ⟨?_, h.bits1, h.bits2, h.bits3⟩
  have hheader := h.header
  simp only [holds_cons, holds_nil, and_true, Compact.compacted] at hheader ⊢
  obtain ⟨h1, h2, h3, h4, h5, h6, h7, h8, h9, h10, h11, h12, -, h14, h15⟩ := hheader
  simp (disch := decide) only [get_set_self, get_set_of_disjoint, h1, h2, h3, h4, h5, h6, h7, h8,
    h9, h10, h11, h12, h14, h15, and_true, true_and]
  rfl

/-- The bits in which the forms may differ. -/
theorem Encodes3.bits {acc sub cmpt : BitVec 32} {n : Native}
    (h : Encodes3 s opcode size dst src0 src1 src2 acc sub cmpt n) :
    get Header.acc_wr_control n.header = acc ∧ get Gen8.Da3src.dest_subreg_nr n.bits1 = sub ∧
      get Header.cmpt_control n.header = cmpt := by
  have hheader := h.header
  have hbits1 := h.bits1
  simp only [holds_cons] at hheader hbits1
  exact ⟨hheader.2.2.2.2.2.2.2.2.2.2.2.1, hbits1.2.2.2.2.2.2.2.2.2.2.2.2.2.2.1,
    hheader.2.2.2.2.2.2.2.2.2.2.2.2.1⟩

theorem truncate_nr {nr : BitVec 8} (h : nr < 128) :
    truncate 8 (u32 nr) = truncate 7 (u32 nr) := by
  have hlt : nr.toNat < 128 := h
  rw [← BitVec.toNat_inj, toNat_truncate _ (by decide), toNat_truncate _ (by decide),
    BitVec.toNat_setWidth]
  omega

theorem truncate_bit (x : BitVec 1) : truncate 1 (u32 x) = u32 x := by
  revert x
  decide

theorem truncate_subnr_low (x : BitVec 32) : truncate 2 (x &&& 3) = truncate 2 x := by
  rw [show (3 : BitVec 32) = low 32 2 by decide]
  exact get_and_low ⟨0, 2⟩ x 2 (by decide)

/-- At most one source is negated, and the index says which one. -/
theorem negated_source {a b c : BitVec 1} (h : ¬ 1 < u32 a + u32 b + u32 c) :
    let index : BitVec 32 := truncate 2 (if a = 1 then 1 else if b = 1 then 2
      else if c = 1 then 3 else 0)
    (if index = 1 then 1 else 0) = u32 a ∧ (if index = 2 then 1 else 0) = u32 b ∧
      (if index = 3 then 1 else 0) = u32 c := by
  revert a b c
  decide

theorem absolute_eq_zero {a b c : BitVec 1} (h : ¬ 0 < u32 a + u32 b + u32 c) :
    a = 0 ∧ b = 0 ∧ c = 0 := by
  revert a b c
  decide

theorem src3ControlBits_holds (s : GenInstructionState) (size : BitVec 32) : Holds [
    (Src3ControlBits.access_mode, 1), (Src3ControlBits.dependency_control, 0),
    (Src3ControlBits.nibble_control, 0),
    (Src3ControlBits.quarter_control, truncate 2 (u32 s.quarterControl)),
    (Src3ControlBits.thread_control, 0), (Src3ControlBits.predicate_control, 0),
    (Src3ControlBits.predicate_inverse, 0), (Src3ControlBits.execution_size, truncate 3 size),
    (Src3ControlBits.conditional_modifier, 0), (Src3ControlBits.acc_wr_control, 0),
    (Src3ControlBits.flag_sub_reg_nr, 0), (Src3ControlBits.flag_reg_nr, 0),
    (Src3ControlBits.mask_control, truncate 1 (u32 s.noMask))]
    (src3ControlBits s (u32 s.quarterControl) size) := by
  simp only [src3ControlBits, holds_cons, holds_nil]
  simp (disch := decide) only [get_set_self, get_set_of_disjoint, get_zero, and_true, true_and]
  and_intros <;> rfl

theorem compactControlBitsSrc3_eq_some
    (h : compactControlBitsSrc3 s (u32 s.quarterControl) s.execWidth = some ci) :
    s.nibControl = 0 ∧ s.predicate = 0 ∧ s.flag = 0 ∧ s.subFlag = 0 ∧
      ∃ size, executionSize s.execWidth = some size ∧
        patternAt src3_control_table (truncate 2 ci) =
          src3ControlBits s (u32 s.quarterControl) size := by
  rw [compactControlBitsSrc3] at h
  split at h
  · cases h
  rename_i hnib
  split at h
  · cases h
  rename_i hpred
  split at h
  · cases h
  split at h
  · cases h
  rename_i hflag
  split at h
  · cases h
  rename_i hsub
  split at h
  · cases h
  obtain ⟨size, hsize, hlookup⟩ := Option.bind_eq_some_iff.mp h
  refine ⟨not_not.mp hnib, not_not.mp hpred, ?_, not_not.mp hsub, size, hsize,
    tables_invert.src3Control.patternAt_eq hlookup⟩
  generalize s.flag = x at hflag
  revert x
  decide

/-- What the encoder emits for three sources of single precision. -/
theorem alu3_encodes {n : Native} (hsize : executionSize s.execWidth = some size)
    (hnib : s.nibControl = 0) (hpred : s.predicate = 0) (hflag : s.flag = 0)
    (hsub : s.subFlag = 0) (htype : src0.type = GEN_TYPE_F)
    (habs : src0.absolute = 0 ∧ src1.absolute = 0 ∧ src2.absolute = 0)
    (h : Gen8.alu3 s opcode dst src0 src1 src2 = some n) :
    (dst.nr < 128 ∧ src0.nr < 128 ∧ src1.nr < 128 ∧ src2.nr < 128) ∧
      Encodes3 s opcode size dst src0 src1 src2 (truncate 1 (u32 s.accWrEnable))
        (truncate 3 (u32 dst.subnr / 4)) 0 n := by
  rw [Gen8.alu3] at h
  split at h
  · cases h
  split at h
  · cases h
  rename_i hregs
  split at h
  · cases h
  rename_i htypes
  simp only [not_not] at hregs htypes
  obtain ⟨⟨-, -, hd⟩, ⟨-, -, h0⟩, ⟨-, -, h1⟩, -, -, h2⟩ := hregs
  obtain ⟨-, -, ht1, ht2⟩ := htypes
  rw [htype] at ht1 ht2
  have hnf : ¬ GEN_TYPE_F = GEN_TYPE_DF := by decide
  have hnh : ¬ GEN_TYPE_F = GEN_TYPE_HF := by decide
  obtain ⟨ha0, ha1, ha2⟩ := habs
  simp only [Gen8.setHeader, hsize, Option.map_some, Option.bind_some, Option.some_inj,
    setPredicate, hpred, htype, ← ht1, ← ht2, hnf, hnh, if_false, hnib, hflag, hsub, ha0, ha1,
    ha2, ne_eq, not_true_eq_false] at h
  subst h
  refine ⟨⟨hd, h0, h1, h2⟩, ?_, ?_, ?_, ?_⟩
  all_goals simp only [holds_cons, holds_nil, next]
  all_goals simp (disch := decide) only [get_set_self, get_set_of_disjoint, get_zero, and_true,
    true_and]
  · and_intros <;> rfl
  · exact ⟨rfl, rfl, rfl, rfl, rfl, rfl, truncate_bit _, rfl, truncate_bit _, rfl, truncate_bit _,
      rfl, rfl, rfl, rfl, truncate_nr hd⟩
  · exact ⟨rfl, rfl, rfl, truncate_nr h0, rfl, rfl, truncate_subnr_low _⟩
  · exact ⟨rfl, truncate_nr h1, rfl, rfl, rfl, truncate_nr h2⟩

/-- What comes back of a compact instruction of three sources. -/
theorem alu3_decompact {p : CompactInsn}
    (h : compactAlu3 .gen8 s opcode dst src0 src1 src2 = some p) :
    isSrc3 (get Src2Insn.opcode p.bits1) ∧ src0.type = GEN_TYPE_F ∧
      (src0.absolute = 0 ∧ src1.absolute = 0 ∧ src2.absolute = 0) ∧ s.nibControl = 0 ∧
      s.predicate = 0 ∧ s.flag = 0 ∧ s.subFlag = 0 ∧
      ∃ size, executionSize s.execWidth = some size ∧
        Encodes3 s opcode size dst src0 src1 src2 0 0 1 (decompactSrc3 p) := by
  rw [compactAlu3, if_neg (by decide)] at h
  split at h
  · cases h
  rename_i hopcode
  split at h
  · cases h
  rename_i htype
  split at h
  · cases h
  obtain ⟨ci, hci, h⟩ := Option.bind_eq_some_iff.mp h
  obtain ⟨hnib, hpred, hflag, hsub, size, hsize, hpattern⟩ := compactControlBitsSrc3_eq_some hci
  split at h
  · cases h
  rename_i hneg
  split at h
  · cases h
  rename_i habs
  obtain ⟨hneg0, hneg1, hneg2⟩ := negated_source hneg
  simp only [Option.some_inj] at h
  have hctl := src3ControlBits_holds s size
  simp only [holds_cons, holds_nil, and_true] at hctl
  obtain ⟨c1, c2, c3, c4, c5, c6, c7, c8, c9, c10, c11, c12, c13⟩ := hctl
  have hb1 : Holds [(Src2Insn.opcode, truncate 7 (u32 opcode)), (Src2Insn.debug_control, 0),
      (Src3Insn.control_index, truncate 2 ci),
      (Src3Insn.src_index, truncate 2 (if src0.negation = 1 then 1 else
        if src1.negation = 1 then 2 else if src2.negation = 1 then 3 else 0)),
      (Src3Insn.dst_reg_nr, truncate 7 (u32 dst.nr)),
      (Src3Insn.src0_rep_ctrl, truncate 1 (Gen8.repCtrl src0)), (Src2Insn.cmpt_control, 1),
      (Src3Insn.saturate, truncate 1 (u32 s.saturate))] p.bits1 := by
    subst h
    simp only [holds_cons, holds_nil, nextCompact]
    simp (disch := decide) only [get_set_self, get_set_of_disjoint, get_zero, and_true, true_and]
    and_intros <;> rfl
  have hb2 : Holds [(Src3Insn.src1_rep_ctrl, truncate 1 (Gen8.repCtrl src1)),
      (Src3Insn.src2_rep_ctrl, truncate 1 (Gen8.repCtrl src2)),
      (Src3Insn.src0_subnr, truncate 3 (u32 src0.subnr / 4)),
      (Src3Insn.src1_subnr, truncate 3 (u32 src1.subnr / 4)),
      (Src3Insn.src2_subnr, truncate 3 (u32 src2.subnr / 4)),
      (Src3Insn.src0_reg_nr, truncate 7 (u32 src0.nr)),
      (Src3Insn.src1_reg_nr, truncate 7 (u32 src1.nr)),
      (Src3Insn.src2_reg_nr, truncate 7 (u32 src2.nr))] p.bits2 := by
    subst h
    simp only [holds_cons, holds_nil, nextCompact]
    simp (disch := decide) only [get_set_self, get_set_of_disjoint, and_true]
    and_intros <;> rfl
  clear h
  simp only [holds_cons, holds_nil, and_true] at hb1 hb2
  obtain ⟨hop, hdebug, hindex, hsource, hdnr, hrep0, hcmpt, hsat⟩ := hb1
  obtain ⟨hrep1, hrep2, hsub0, hsub1, hsub2, hnr0, hnr1, hnr2⟩ := hb2
  refine ⟨?_, not_not.mp htype, absolute_eq_zero habs, hnib, hpred, hflag, hsub, size, hsize, ?_⟩
  · rw [hop, truncate_opcode]
    by_contra hnot
    refine hopcode ⟨fun heq => hnot (Or.inl (by rw [heq])), fun heq => hnot (Or.inr (by rw [heq]))⟩
  simp only [decompactSrc3, isSource, hop, hdebug, hindex, hsource, hdnr, hrep0, hcmpt, hsat, hrep1,
    hrep2, hsub0, hsub1, hsub2, hnr0, hnr1, hnr2, hpattern, c1, c2, c3, c4, c5, c6, c7, c8, c9, c10,
    c11, c12, c13, hneg0, hneg1, hneg2]
  refine ⟨?_, ?_, ?_, ?_⟩
  all_goals simp only [holds_cons, holds_nil]
  all_goals simp (disch := decide) only [get_set_self, get_set_of_disjoint, get_zero,
    truncate_truncate, truncate_truncate_of_ge, truncate_shiftRight, and_true, true_and]
  · and_intros <;> rfl
  · exact ⟨rfl, rfl, rfl, truncate_bit _, truncate_bit _, truncate_bit _, rfl⟩
  · exact ⟨rfl, rfl, rfl, rfl, rfl,
      (truncate_subnr_low _).trans (truncate_truncate (by decide) _)⟩
  · and_intros <;> rfl

theorem subnr_iff (subnr : BitVec 8) :
    truncate 3 (u32 subnr / 4) = 0 ↔ subnr.toNat / 4 % 8 = 0 := by
  have hlt := subnr.isLt
  have hfour : (4 : BitVec 32).toNat = 4 := rfl
  rw [← BitVec.toNat_inj, toNat_truncate _ (by decide), BitVec.toNat_udiv, BitVec.toNat_setWidth,
    Nat.mod_eq_of_lt (show subnr.toNat < 2 ^ 32 by omega), hfour]
  rfl

/-- An instruction of three sources comes back exactly when it does not write the
accumulator and its destination begins with its register. -/
theorem alu3_exact {p : CompactInsn} {n : Native}
    (hp : compactAlu3 .gen8 s opcode dst src0 src1 src2 = some p)
    (hn : Gen8.alu3 s opcode dst src0 src1 src2 = some n) :
    decompactInstruction p .gen8 ≠ some n ∧ (decompactInstruction p .gen8 = some (compacted n) ↔
      s.accWrEnable = 0 ∧ dst.subnr.toNat / 4 % 8 = 0) := by
  obtain ⟨hsrc3, htype, habs, hnib, hpred, hflag, hsub, size, hsize, hd⟩ := alu3_decompact hp
  obtain ⟨-, hencodes⟩ := alu3_encodes hsize hnib hpred hflag hsub htype habs hn
  have hdecompact : decompactInstruction p .gen8 = some (decompactSrc3 p) := by
    simp only [decompactInstruction, if_pos hsrc3, if_true]
  rw [hdecompact, ne_eq, Option.some_inj, Option.some_inj, ← subnr_iff]
  refine ⟨fun heq => ?_, fun heq => ?_, fun hregular => ?_⟩
  · obtain ⟨-, -, hcmpt⟩ := hd.bits
    obtain ⟨-, -, hcmpt'⟩ := hencodes.bits
    rw [heq, hcmpt'] at hcmpt
    exact absurd hcmpt (by decide)
  · obtain ⟨hacc, hsubnr, -⟩ := hd.bits
    obtain ⟨hacc', hsubnr', -⟩ := hencodes.compacted.bits
    rw [heq, hacc', truncate_bit] at hacc
    rw [heq, hsubnr'] at hsubnr
    have hzero : ∀ x : BitVec 1, u32 x = 0 → x = 0 := by decide
    exact ⟨hzero _ hacc, hsubnr⟩
  · rw [hregular.1, hregular.2] at hencodes
    exact hd.unique hencodes.compacted

end Alu3

/-! ### All calls -/

/-- No compact instruction comes back as the encoder would have emitted it: the mark of a
compact instruction is copied.  Apart from the mark it comes back exactly when it is
regular. -/
theorem decompact_iff {v : Version} {s : GenInstructionState} {c : Call} {p : CompactInsn}
    {n : Native} (hp : c.compact v s = some p) (hn : c.native v s = some n) :
    decompactInstruction p v ≠ some n ∧
      (decompactInstruction p v = some (compacted n) ↔ c.Regular s) := by
  cases c with
  | alu1 opcode dst src condition =>
    simp only [Call.compact, compactAlu1, Bool.false_eq_true, if_false] at hp
    obtain ⟨ci, hci, hp⟩ := Option.bind_eq_some_iff.mp hp
    obtain ⟨di, hdi, hp⟩ := Option.bind_eq_some_iff.mp hp
    obtain ⟨si, hsi, hp⟩ := Option.bind_eq_some_iff.mp hp
    obtain ⟨i0, hi0, hp⟩ := Option.map_eq_some_iff.mp hp
    obtain ⟨hnib, hinv, hfile, hmode, size, hsize, hfound⟩ :=
      found_of_compact hci hdi hsi hi0 (show Src1Found s none (0, 0) from rfl)
    exact alu_exact opcode.2 hfound (alu1_encodes opcode.2 hsize hnib hinv hfile hmode hn) hp.symm
  | alu2 opcode dst src0 src1 condition =>
    obtain ⟨ci, di, si, i0, i1, nr1, size, hnib, hinv, hfile, hmode, hsize, hfound, rfl⟩ :=
      found_of_compactAlu2 hp
    exact alu_exact opcode.2 hfound (alu2_encodes opcode.2 hsize hnib hinv hfile hmode hn) rfl
  | cmp dst src0 src1 conditional =>
    simp only [Call.compact] at hp
    split at hp
    · cases hp
    rename_i hnull
    obtain ⟨ci, di, si, i0, i1, nr1, size, hnib, hinv, hfile, hmode, hsize, hfound, rfl⟩ :=
      found_of_compactAlu2 hp
    exact alu_exact (by decide) hfound (cmp_encodes hnull hsize hnib hinv hfile hmode hn) rfl
  | alu3 opcode dst src0 src1 src2 =>
    cases v with
    | gen7 =>
      simp only [Call.compact, compactAlu3, if_true] at hp
      cases hp
    | gen8 => exact alu3_exact hp hn

/-- A general register in single precision. -/
def floatRegister (nr : BitVec 8) : GenRegister where
  value := 0
  nr := nr
  subnr := 0
  type := GEN_TYPE_F
  file := GEN_GENERAL_REGISTER_FILE
  negation := 0
  absolute := 0
  vstride := 4
  width := 3
  hstride := 1
  address_mode := 0
  a0_subnr := 0
  addr_imm := 0

def simd8 : GenInstructionState where
  flag := 0
  subFlag := 0
  execWidth := 8
  quarterControl := 0
  nibControl := 0
  accWrEnable := 0
  noMask := 0
  predicate := 0
  inversePredicate := 0
  saturate := 0

/-- `MOV(8) g10<1>F g20<8,8,1>F` -/
def movCall : Call := .alu1 ⟨GEN_OPCODE_MOV, by decide⟩ (floatRegister 10) (floatRegister 20) 0

theorem decompact_iff_mov : ∃ p n, movCall.compact .gen7 simd8 = some p ∧
    movCall.native .gen7 simd8 = some n ∧ decompactInstruction p .gen7 ≠ some n ∧
      (decompactInstruction p .gen7 = some (compacted n) ↔ movCall.Regular simd8) := by
  refine ⟨_, _, rfl, rfl, decompact_iff (v := .gen7) (s := simd8) (c := movCall) rfl rfl⟩

/-- A word with the layout of a scalar. -/
def wordScalar (nr : BitVec 8) : GenRegister :=
  { floatRegister nr with type := GEN_TYPE_UW, vstride := 0, width := 0, hstride := 0 }

/-- The flag register `f0.0`. -/
def flagWord : GenRegister :=
  { wordScalar 0x30 with file := GEN_ARCHITECTURE_REGISTER_FILE }

def simd1 : GenInstructionState := { simd8 with execWidth := 1, noMask := 1 }

/-- `AND(1) g10<1>UW f0.0<0,1,0>UW g30<0,1,0>UW` -/
def andCall : Call :=
  .alu2 ⟨GEN_OPCODE_AND, by decide⟩ (wordScalar 10) flagWord (wordScalar 30) 0

/-- The conjunction comes back with stride 1 where stride 2 is encoded, and with the mark of
a compact instruction. -/
theorem and_not_restored : ∃ p n, andCall.compact .gen7 simd1 = some p ∧
    andCall.native .gen7 simd1 = some n ∧ decompactInstruction p .gen7 ≠ some n ∧
      decompactInstruction p .gen7 ≠ some (compacted n) := by
  refine ⟨⟨0x20034005, 0x1e300a00⟩, ⟨0x205, 0x41402509, 0x600, 0x3c0⟩, rfl, rfl, ?_⟩
  decide +kernel

end Compact
