/-
Reading native instructions back: `setHeader`, `setDst`, `setSrc0` and `setSrc1` of
`gen7_encoder.cpp` and `gen8_encoder.cpp`.

Each stage is a list of assignments to fields, and what a stage leaves alone are the fields
apart from its own.

* `readState_setHeader` — the state comes back, whatever the opcode;
* `setSrc0_keeps`, `setSrc1_keeps` — what the sources leave alone;
* **`encode_iff`** — what comes back of an instruction.
-/
import Beignet.Backend.NativeLayout

namespace Compact

open BitFields

/-! ### The encoding -/

/-- A new instruction, with its condition. -/
def start (opcode : BitVec 7) (condition : BitVec 32) : Native :=
  if condition ≠ 0 then
    { next opcode with
      header := set Header.destreg_or_condmod condition (next opcode).header }
  else next opcode

/-- An instruction of one source or of two. -/
def encode (v : Version) (curr : GenInstructionState) (insn : Native) (dst src0 : GenRegister)
    (src1 : Option GenRegister) : Option Native :=
  (v.setHeader curr insn).bind fun insn =>
    (v.setDst insn dst).bind fun insn =>
      (v.setSrc0 insn src0).bind fun insn =>
        match src1 with
        | none => some insn
        | some src1 => v.setSrc1 insn src1

/-! ### The state -/

section

variable {curr : GenInstructionState} {insn n : Native}

def predicateWrites (curr : GenInstructionState) : List (Field × BitVec 32) :=
  if curr.predicate ≠ 0 then
    [(Header.predicate_control, u32 curr.predicate),
      (Header.predicate_inverse, u32 curr.inversePredicate)]
  else []

/-- The assignments to the header; one field is another one in the two generations. -/
def headerWrites (f : Field) (y : BitVec 32) (curr : GenInstructionState) (size : BitVec 32) :
    List (Field × BitVec 32) :=
  [(Header.execution_size, size), (Header.acc_wr_control, u32 curr.accWrEnable),
    (Header.quarter_control, u32 curr.quarterControl), (f, y)] ++
    predicateWrites curr ++ [(Header.saturate, u32 curr.saturate)]

theorem setHeader_gen8_assign (h : Gen8.setHeader curr insn = some n) :
    ∃ size, executionSize curr.execWidth = some size ∧
      n.header = assign (headerWrites Gen8.nib_ctrl (u32 curr.nibControl) curr size) insn.header ∧
      n.bits1 = assign [(Gen8.mask_control, u32 curr.noMask), (Gen8.flag_reg_nr, u32 curr.flag),
          (Gen8.flag_sub_reg_nr, u32 curr.subFlag)] insn.bits1 ∧
      n.bits2 = insn.bits2 ∧ n.bits3 = insn.bits3 := by
  obtain ⟨size, hsize, rfl⟩ := Option.map_eq_some_iff.mp h
  refine ⟨size, hsize, ?_, rfl, rfl, rfl⟩
  simp only [headerWrites, predicateWrites, setPredicate]
  split <;> rfl

theorem setHeader_gen7_assign (h : Gen7.setHeader curr insn = some n) :
    ∃ size, executionSize curr.execWidth = some size ∧
      n.header = assign (headerWrites Gen7.mask_control (u32 curr.noMask) curr size) insn.header ∧
      n.bits3 = insn.bits3 ∧
      if isSrc3 (get Header.opcode insn.header) then
        n.bits1 = assign [(Gen7.nib_ctrl, u32 curr.nibControl),
            (Gen7.da3src_flag_reg_nr, u32 curr.flag),
            (Gen7.da3src_flag_sub_reg_nr, u32 curr.subFlag)] insn.bits1 ∧ n.bits2 = insn.bits2
      else
        n.bits1 = assign [(Gen7.nib_ctrl, u32 curr.nibControl)] insn.bits1 ∧
          n.bits2 = assign [(Gen7.flag_reg_nr, u32 curr.flag),
            (Gen7.flag_sub_reg_nr, u32 curr.subFlag)] insn.bits2 := by
  obtain ⟨size, hsize, rfl⟩ := Option.map_eq_some_iff.mp h
  refine ⟨size, hsize, ?_, ?_, ?_⟩
  · simp only [headerWrites, predicateWrites, setPredicate]
    split <;> split <;> rfl
  · simp only
    split <;> rfl
  · split <;> exact ⟨rfl, rfl⟩

theorem headerWrites_apart {f : Field} (hf : f = Gen7.mask_control ∨ f = Gen8.nib_ctrl)
    (y size : BitVec 32) : ((headerWrites f y curr size).map Prod.fst).Pairwise Apart := by
  rw [headerWrites, predicateWrites]
  rcases hf with rfl | rfl <;> split
  · exact (by decide : [Header.execution_size, Header.acc_wr_control, Header.quarter_control,
      Gen7.mask_control, Header.predicate_control, Header.predicate_inverse,
      Header.saturate].Pairwise Apart)
  · exact (by decide : [Header.execution_size, Header.acc_wr_control, Header.quarter_control,
      Gen7.mask_control, Header.saturate].Pairwise Apart)
  · exact (by decide : [Header.execution_size, Header.acc_wr_control, Header.quarter_control,
      Gen8.nib_ctrl, Header.predicate_control, Header.predicate_inverse,
      Header.saturate].Pairwise Apart)
  · exact (by decide : [Header.execution_size, Header.acc_wr_control, Header.quarter_control,
      Gen8.nib_ctrl, Header.saturate].Pairwise Apart)

/-- The header of a new instruction has no predicate. -/
structure Blank (opcode : BitVec 7) (insn : Native) : Prop where
  header : ∀ f : Field, f.lo + f.width ≤ 32 → Apart f Header.opcode →
    Apart f Header.destreg_or_condmod → get f insn.header = 0
  opcode_eq : get Header.opcode insn.header = u32 opcode
  words : insn.bits1 = 0 ∧ insn.bits2 = 0 ∧ insn.bits3 = 0

theorem blank_start (opcode : BitVec 7) (condition : BitVec 32) :
    Blank opcode (start opcode condition) := by
  have hopcode : truncate 7 (u32 opcode) = u32 opcode := by
    refine BitVec.eq_of_toNat_eq ?_
    rw [toNat_truncate _ (by decide), BitVec.toNat_setWidth]
    have := opcode.isLt
    omega
  have hnext : get Header.opcode (next opcode).header = u32 opcode :=
    (get_set_self _ _ _ _ (by decide)).trans hopcode
  rw [start]
  split
  · refine ⟨fun f hf hop hcond => ?_, ?_, rfl, rfl, rfl⟩
    · exact (get_set_of_disjoint _ _ _ _ hf hcond).trans
        ((get_set_of_disjoint _ _ _ _ hf hop).trans (get_zero f))
    · exact (get_set_of_disjoint _ _ _ _ (by decide) (by decide)).trans hnext
  · exact ⟨fun f hf hop _ => (get_set_of_disjoint _ _ _ _ hf hop).trans (get_zero f), hnext, rfl,
      rfl, rfl⟩

/-- The header comes back. -/
theorem read_headerWrites {opcode : BitVec 7} (hblank : Blank opcode insn) {f : Field}
    (hf : f = Gen7.mask_control ∨ f = Gen8.nib_ctrl) {y : BitVec 1} {size : BitVec 32}
    (hsize : executionSize curr.execWidth = some size)
    (h : n.header = assign (headerWrites f (u32 y) curr size) insn.header) :
    execWidthOf (read Header.execution_size 3 n.header) = curr.execWidth ∧
      read Header.acc_wr_control 1 n.header = curr.accWrEnable ∧
      read Header.quarter_control 1 n.header = curr.quarterControl ∧ read f 1 n.header = y ∧
      read Header.predicate_control 4 n.header = curr.predicate ∧
      read Header.predicate_inverse 1 n.header =
        (if curr.predicate ≠ 0 then curr.inversePredicate else 0) ∧
      read Header.saturate 1 n.header = curr.saturate := by
  have hapart : ((headerWrites f (u32 y) curr size).map Prod.fst).Pairwise Apart :=
    headerWrites_apart hf _ _
  have hwidth : 1 ≤ f.width ∧ f.lo + f.width ≤ 32 := by
    rcases hf with rfl | rfl <;> decide
  have hexec : execWidthOf ((truncate 3 size).setWidth 3) = curr.execWidth := by
    rw [executionSize] at hsize
    split_ifs at hsize with h8 h16 h4 h1 <;> obtain rfl := Option.some.inj hsize
    · rw [h8]
      decide
    · rw [h16]
      decide
    · rw [h4]
      decide
    · rw [h1]
      decide
  rw [h]
  have hmem : ∀ {p : Field × BitVec 32}, p ∈ predicateWrites curr →
      p ∈ headerWrites f (u32 y) curr size := fun hp =>
    List.mem_append_left _ (List.mem_append_right _ hp)
  -- without a predicate its fields are those of the new instruction
  have hnone : curr.predicate = 0 → ∀ g : Field,
      g = Header.predicate_control ∨ g = Header.predicate_inverse → ∀ {k},
        read g k (assign (headerWrites f (u32 y) curr size) insn.header) = 0 := by
    intro hpred g hg k
    have hzero : get g (assign (headerWrites f (u32 y) curr size) insn.header) = 0 := by
      rw [headerWrites, predicateWrites, if_neg (not_not.mpr hpred)]
      refine (get_assign_of_apart ?_ ?_).trans (hblank.header g ?_ ?_ ?_)
      · rcases hg with rfl | rfl <;> decide
      · rcases hf with rfl | rfl <;> rcases hg with rfl | rfl <;> simp <;> decide
      all_goals rcases hg with rfl | rfl <;> decide
    rw [read, hzero]
    exact BitVec.setWidth_zero ..
  refine ⟨?_, read_assign (by decide) (by decide) hapart (by simp [headerWrites]),
    read_assign (by decide) (by decide) hapart (by simp [headerWrites]),
    read_assign hwidth.1 hwidth.2 hapart (by simp [headerWrites]), ?_, ?_,
    read_assign (by decide) (by decide) hapart (by simp [headerWrites])⟩
  · rw [read, get_assign (by decide) hapart
      (List.mem_append_left _ (List.mem_append_left _ List.mem_cons_self))]
    exact hexec
  all_goals by_cases hpred : curr.predicate = 0
  · rw [hpred]
    exact hnone hpred _ (Or.inl rfl)
  · refine read_assign (by decide) (by decide) hapart (hmem ?_)
    rw [predicateWrites, if_pos hpred]
    exact List.mem_cons_self
  · rw [if_neg (not_not.mpr hpred)]
    exact hnone hpred _ (Or.inr rfl)
  · rw [if_pos hpred]
    refine read_assign (by decide) (by decide) hapart (hmem ?_)
    rw [predicateWrites, if_pos hpred]
    exact List.mem_cons_of_mem _ List.mem_cons_self

end

/-! ### From stage to stage -/

section

variable {v : Version} {curr : GenInstructionState} {insn n : Native} {reg : GenRegister}
  {size : BitVec 32}

/-- The two headers agree about what the sources need. -/
theorem readImmediate_gen8 (htype : Gen8.isLong reg.type → ¬ 0xFFFFFFFF < reg.value) :
    (reg.ud.setWidth 64 : BitVec 64) =
      if Gen8.isLong reg.type then reg.value else reg.ud.setWidth 64 := by
  split
  · next hlong =>
    have hle : reg.value.toNat ≤ 0xFFFFFFFF := not_lt.mp (htype hlong)
    refine BitVec.eq_of_toNat_eq ?_
    rw [GenRegister.ud, BitVec.toNat_setWidth, BitVec.toNat_setWidth]
    omega
  · rfl

/-- An immediate of 32 bits. -/
theorem immediate_eq_iff {type : BitVec 4} (htype : type = reg.type ↔ TypeFits v reg.type)
    (himm : reg.file = GEN_IMMEDIATE_VALUE)
    (hlong : v = .gen8 → Gen8.isLong reg.type → ¬ 0xFFFFFFFF < reg.value) :
    .immediate type (reg.ud.setWidth 64) = operandOf curr reg ↔
      TypeFits v reg.type ∧ (reg.file = GEN_IMMEDIATE_VALUE ∨ reg.subnr.toNat < 32) := by
  rw [operandOf, if_pos himm, Operand.immediate.injEq, htype]
  refine ⟨fun h => ⟨h.1, Or.inl himm⟩, fun h => ⟨h.1, ?_⟩⟩
  cases v with
  | gen7 => rw [if_neg (short_of_fits h.1)]
  | gen8 => exact readImmediate_gen8 (hlong rfl)

theorem readSrc1_iff (h : v.setSrc1 insn reg = some n)
    (hsize : executionSize curr.execWidth = some size)
    (haccess : get Header.access_mode insn.header = 0)
    (hexec : get Header.execution_size insn.header = truncate 3 size) (hbits3 : insn.bits3 = 0) :
    v.readSrc1 n = operandOf curr reg ↔ Src1Fits v reg := by
  have hdirect : Holds (srcFields curr reg) (setRegion insn.header
      (set Src.negate (u32 reg.negation) (set Src.abs (u32 reg.absolute) insn.bits3)) reg) := by
    rw [hbits3]
    refine srcFields_native hsize haccess hexec ?_ ?_ ?_
    all_goals simp (disch := decide) only [get_set_self, get_set_of_disjoint, get_zero]
    all_goals rfl
  cases v with
  | gen7 =>
    simp only [Version.setSrc1, Gen7.setSrc1] at h
    have hfile : ∀ x : BitVec 32, read Gen7.src1_reg_file 2 (set Gen7.src1_reg_type (u32 reg.type)
        (set Gen7.src1_reg_file (u32 reg.file) x)) = reg.file := by
      intro x
      simp (disch := decide) only [read, get_set_self, get_set_of_disjoint]
      exact setWidth_truncate _ le_rfl (by decide)
    have htype : ∀ x : BitVec 32, read Gen7.src1_reg_type 4 (set Gen7.src1_reg_type (u32 reg.type)
        x) = reg.type ↔ TypeFits .gen7 reg.type := fun x =>
      read_type_iff rfl (get_set_self _ _ _ _ (by decide))
    split_ifs at h with hnr hsrc0 himm hmode
    · obtain rfl := Option.some.inj h
      show Gen7.readSrc1 _ = _ ↔ _
      rw [Gen7.readSrc1, hfile, if_pos himm]
      exact immediate_eq_iff (htype _) himm fun h => absurd h (by decide)
    · obtain rfl := Option.some.inj h
      show Gen7.readSrc1 _ = _ ↔ _
      rw [Gen7.readSrc1, hfile, if_neg himm, readDirect_iff hdirect himm (not_not.mp hmode), htype,
        Src1Fits]
      simp only [himm, true_and, false_or]
  | gen8 =>
    simp only [Version.setSrc1, Gen8.setSrc1] at h
    have hfile : ∀ x : BitVec 32, read Gen8.src1_reg_file 2 (set Gen8.src1_reg_type (u32 reg.type)
        (set Gen8.src1_reg_file (u32 reg.file) x)) = reg.file := by
      intro x
      simp (disch := decide) only [read, get_set_self, get_set_of_disjoint]
      exact setWidth_truncate _ le_rfl (by decide)
    have htype : ∀ x : BitVec 32, read Gen8.src1_reg_type 4 (set Gen8.src1_reg_type (u32 reg.type)
        x) = reg.type ↔ TypeFits .gen8 reg.type := fun x =>
      read_type_iff rfl (get_set_self _ _ _ _ (by decide))
    split_ifs at h with hnr hsrc0 himm hlong hmode
    · obtain rfl := Option.some.inj h
      show Gen8.readSrc1 _ = _ ↔ _
      rw [Gen8.readSrc1, hfile, if_pos himm]
      exact immediate_eq_iff (htype _) himm fun _ h hlt => hlong ⟨h, hlt⟩
    · obtain rfl := Option.some.inj h
      show Gen8.readSrc1 _ = _ ↔ _
      rw [Gen8.readSrc1, hfile, if_neg himm, readDirect_iff hdirect himm (not_not.mp hmode), htype,
        Src1Fits]
      simp only [himm, true_and, false_or]

/-- What the second source leaves alone; it needs a first one that is not immediate. -/
theorem setSrc1_keeps (h : v.setSrc1 insn reg = some n) :
    n.header = insn.header ∧ get v.src0_reg_file insn.bits1 ≠ u32 GEN_IMMEDIATE_VALUE ∧
      match v with
      | .gen7 => n.bits2 = insn.bits2 ∧ ∀ f : Field, f.lo + f.width ≤ 32 → Apart f ⟨10, 5⟩ →
          get f n.bits1 = get f insn.bits1
      | .gen8 => n.bits1 = insn.bits1 ∧ ∀ f : Field, f.lo + f.width ≤ 32 → Apart f ⟨25, 6⟩ →
          get f n.bits2 = get f insn.bits2 := by
  cases v with
  | gen7 =>
    simp only [Version.setSrc1, Gen7.setSrc1] at h
    split_ifs at h with hnr hsrc0 himm hmode <;> obtain rfl := Option.some.inj h
    all_goals
      refine ⟨rfl, ?_, rfl, fun f hf hapart => ?_⟩
      · simp (disch := decide) only [get_set_of_disjoint] at hsrc0
        exact hsrc0
      · simp only [Apart] at hapart
        rw [get_set_of_disjoint _ _ _ _ hf, get_set_of_disjoint _ _ _ _ hf]
        all_goals
          simp only [Gen7.src1_reg_file, Gen7.src1_reg_type]
          omega
  | gen8 =>
    simp only [Version.setSrc1, Gen8.setSrc1] at h
    split_ifs at h with hnr hsrc0 himm hlong hmode <;> obtain rfl := Option.some.inj h
    all_goals
      refine ⟨rfl, hsrc0, rfl, fun f hf hapart => ?_⟩
      simp only [Apart] at hapart
      rw [get_set_of_disjoint _ _ _ _ hf, get_set_of_disjoint _ _ _ _ hf]
      all_goals
        simp only [Gen8.src1_reg_file, Gen8.src1_reg_type]
        omega

/-- The fields of the first source are apart from those of the second. -/
theorem Src0Words.setSrc1 {src0 : GenRegister} (hwords : Src0Words v curr src0 insn)
    (h : v.setSrc1 insn reg = some n) : Src0Words v curr src0 n := by
  obtain ⟨-, hnot, hkeeps⟩ := setSrc1_keeps h
  have himm : src0.address_mode = 0 → src0.file ≠ GEN_IMMEDIATE_VALUE := by
    intro hmode hfile
    refine hnot (hwords.file.trans ?_)
    rw [if_pos hmode, hfile]
    decide
  refine ⟨?_, ?_, fun hmode hfile p hp => ?_, fun hmode p hp => ?_, fun hmode hfile =>
    absurd hfile (himm hmode)⟩
  · refine Eq.trans ?_ hwords.file
    cases v with
    | gen7 => exact hkeeps.2 _ (by decide) (by decide)
    | gen8 => exact congrArg _ hkeeps.1
  · refine Eq.trans ?_ hwords.type
    cases v with
    | gen7 => exact hkeeps.2 _ (by decide) (by decide)
    | gen8 => exact congrArg _ hkeeps.1
  · refine Eq.trans ?_ (hwords.direct hmode hfile p hp)
    cases v with
    | gen7 => exact congrArg _ hkeeps.1
    | gen8 =>
      have hp : p.1 ∈ (srcFields curr src0).map Prod.fst := List.mem_map_of_mem hp
      revert hp
      generalize p.1 = f
      intro hf
      have hall : ∀ f ∈ [Src.subreg_nr, Src.reg_nr, Src.abs, Src.negate, Src.address_mode,
          Src.horiz_stride, Src.width, Src.vert_stride],
          f.lo + f.width ≤ 32 ∧ Apart f ⟨25, 6⟩ := by decide
      exact hkeeps.2 f (hall f hf).1 (hall f hf).2
  · refine Eq.trans ?_ (hwords.indirect hmode p hp)
    cases v with
    | gen7 => exact congrArg _ hkeeps.1
    | gen8 =>
      have hp : p.1 ∈ (indirectFields .gen8 src0).map Prod.fst := List.mem_map_of_mem hp
      revert hp
      generalize p.1 = f
      intro hf
      have hall : ∀ f ∈ [Src.abs, Src.negate, Src.address_mode, Src.horiz_stride, Src.width,
          Src.vert_stride, Gen8.src0_indirect_subreg_nr, Gen8.src0_indirect_offset,
          Gen8.src0_indirect_offset_9], f.lo + f.width ≤ 32 ∧ Apart f ⟨25, 6⟩ := by decide
      exact hkeeps.2 f (hall f hf).1 (hall f hf).2

theorem get_setRegion_of_le {f : Field} (hf : f.lo + f.width ≤ 32) (hlo : 25 ≤ f.lo)
    (header word : BitVec 32) : get f (setRegion header word reg) = get f word := by
  have hall : ∀ g ∈ [Src.vert_stride, Src.width, Src.horiz_stride, Src.reg_nr, Src.subreg_nr,
      Src.subreg_nr16], g.lo + g.width ≤ 25 := by decide
  exact get_setRegion hf fun g hg => Or.inr ((hall g hg).trans hlo)

/-- What the first source leaves alone. -/
theorem setSrc0_keeps (h : v.setSrc0 insn reg = some n) :
    n.header = insn.header ∧
      (∀ f : Field, f.lo + f.width ≤ 32 → Apart f v.srcArea →
        get f n.bits1 = get f insn.bits1) ∧
      (v = .gen7 → ∀ f : Field, f.lo + f.width ≤ 32 → 25 ≤ f.lo →
        get f n.bits2 = get f insn.bits2) ∧
      (reg.address_mode ≠ 0 ∨ reg.file ≠ GEN_IMMEDIATE_VALUE → n.bits3 = insn.bits3) := by
  cases v with
  | gen7 =>
    have harea : ∀ {f : Field}, Apart f Version.gen7.srcArea →
        ∀ g ∈ [Gen7.src0_reg_file, Gen7.src0_reg_type, Gen7.src1_reg_file, Gen7.src1_reg_type],
          f.lo + f.width ≤ g.lo ∨ g.lo + g.width ≤ f.lo := by
      intro f hapart
      simp only [Apart, Version.srcArea] at hapart
      simp only [List.forall_mem_cons, Gen7.src0_reg_file, Gen7.src0_reg_type, Gen7.src1_reg_file,
        Gen7.src1_reg_type]
      refine ⟨?_, ?_, ?_, ?_, fun _ h => absurd h List.not_mem_nil⟩ <;> omega
    have hlow : ∀ {f : Field}, 25 ≤ f.lo →
        ∀ g ∈ [Gen7.src0_indirect_subreg_nr, Gen7.src0_indirect_offset, Src.negate, Src.abs,
          Src.horiz_stride, Src.address_mode, Src.vert_stride, Src.width],
          f.lo + f.width ≤ g.lo ∨ g.lo + g.width ≤ f.lo := by
      have hall : ∀ g ∈ [Gen7.src0_indirect_subreg_nr, Gen7.src0_indirect_offset, Src.negate,
          Src.abs, Src.horiz_stride, Src.address_mode, Src.vert_stride, Src.width],
          g.lo + g.width ≤ 25 := by decide
      exact fun {f} hlo g hg => Or.inr ((hall g hg).trans hlo)
    simp only [List.forall_mem_cons] at harea hlow
    simp only [Version.setSrc0, Gen7.setSrc0] at h
    split_ifs at h with hnr hmode himm <;> obtain rfl := Option.some.inj h
    · refine ⟨rfl, fun f hf hapart => ?_, fun _ f hf hlo => ?_, fun h => ?_⟩
      · obtain ⟨h0, h1, h2, h3, -⟩ := harea hapart
        simp only [get_set_of_disjoint, hf, h0, h1, h2, h3]
      · obtain ⟨-, -, h2, h3, -, h5, -⟩ := hlow hlo
        simp only [get_set_of_disjoint, hf, h2, h3, h5]
      · exact absurd himm (h.resolve_left (not_not.mpr hmode))
    · refine ⟨rfl, fun f hf hapart => ?_, fun _ f hf hlo => ?_, fun _ => rfl⟩
      · obtain ⟨h0, h1, -⟩ := harea hapart
        simp only [get_set_of_disjoint, hf, h0, h1]
      · obtain ⟨-, -, h2, h3, -, h5, -⟩ := hlow hlo
        simp only [get_setRegion_of_le hf hlo, get_set_of_disjoint, hf, h2, h3, h5]
    · refine ⟨rfl, fun f hf hapart => ?_, fun _ f hf hlo => ?_, fun _ => rfl⟩
      · obtain ⟨h0, h1, -⟩ := harea hapart
        simp only [get_set_of_disjoint, hf, h0, h1]
      · obtain ⟨h0, h1, h2, h3, h4, h5, h6, h7, -⟩ := hlow hlo
        simp only [get_set_of_disjoint, hf, h0, h1, h2, h3, h4, h5, h6, h7]
  | gen8 =>
    have harea : ∀ {f : Field}, Apart f Version.gen8.srcArea →
        ∀ g ∈ [Gen8.src0_reg_file, Gen8.src0_reg_type],
          f.lo + f.width ≤ g.lo ∨ g.lo + g.width ≤ f.lo := by
      intro f hapart
      simp only [Apart, Version.srcArea] at hapart
      simp only [List.forall_mem_cons, Gen8.src0_reg_file, Gen8.src0_reg_type]
      refine ⟨?_, ?_, fun _ h => absurd h List.not_mem_nil⟩ <;> omega
    have hbits1 : ∀ {f : Field} {x y : BitVec 32}, f.lo + f.width ≤ 32 →
        Apart f Version.gen8.srcArea →
        get f (set Gen8.src0_reg_type y (set Gen8.src0_reg_file x insn.bits1)) =
          get f insn.bits1 := by
      intro f x y hf hapart
      have hfields := harea hapart
      simp only [List.forall_mem_cons] at hfields
      simp only [get_set_of_disjoint, hf, hfields.1, hfields.2.1]
    simp only [Version.setSrc0, Gen8.setSrc0] at h
    split_ifs at h with hnr hmode himm hlong <;> obtain rfl := Option.some.inj h
    · exact ⟨rfl, fun f hf hapart => hbits1 hf hapart, fun h => absurd h (by decide),
        fun h => absurd himm (h.resolve_left (not_not.mpr hmode))⟩
    · exact ⟨rfl, fun f hf hapart => hbits1 hf hapart, fun h => absurd h (by decide),
        fun h => absurd himm (h.resolve_left (not_not.mpr hmode))⟩
    · exact ⟨rfl, fun f hf hapart => hbits1 hf hapart, fun h => absurd h (by decide),
        fun _ => rfl⟩
    · exact ⟨rfl, fun f hf hapart => hbits1 hf hapart, fun h => absurd h (by decide),
        fun _ => rfl⟩

/-- What the first source writes. -/
theorem setSrc0_words (h : v.setSrc0 insn reg = some n)
    (hsize : executionSize curr.execWidth = some size)
    (haccess : get Header.access_mode insn.header = 0)
    (hexec : get Header.execution_size insn.header = truncate 3 size) :
    Src0Words v curr reg n := by
  have hdirect : reg.address_mode = 0 → Holds (srcFields curr reg) (setRegion insn.header
      (set Src.address_mode (u32 reg.address_mode) (set Src.negate (u32 reg.negation)
        (set Src.abs (u32 reg.absolute) insn.bits2))) reg) := by
    intro hmode
    refine srcFields_native hsize haccess hexec ?_ ?_ ?_
    all_goals simp (disch := decide) only [get_set_self, get_set_of_disjoint]
    · rfl
    · rfl
    · rw [hmode]
      decide
  cases v with
  | gen7 =>
    simp only [Version.setSrc0, Gen7.setSrc0] at h
    split_ifs at h with hnr hmode himm <;> obtain rfl := Option.some.inj h
    · refine ⟨?_, ?_, fun _ h => absurd himm h, fun h => absurd hmode h, fun _ _ => ?_⟩
      · rw [if_pos hmode]
        simp (disch := decide) only [Version.src0_reg_file, get_set_self, get_set_of_disjoint]
        rfl
      · simp (disch := decide) only [Version.src0_reg_type, get_set_self, get_set_of_disjoint]
        rfl
      · rw [if_neg fun h => absurd h.1 (by decide)]
    · refine ⟨?_, ?_, fun _ _ => hdirect hmode, fun h => absurd hmode h, fun _ h => absurd h himm⟩
      · rw [if_pos hmode]
        simp (disch := decide) only [Version.src0_reg_file, get_set_self, get_set_of_disjoint]
        rfl
      · simp (disch := decide) only [Version.src0_reg_type, get_set_self]
        rfl
    · refine ⟨?_, ?_, fun h => absurd h hmode, fun _ => ?_, fun h => absurd h hmode⟩
      · rw [if_neg hmode]
        simp (disch := decide) only [Version.src0_reg_file, get_set_self, get_set_of_disjoint]
        rfl
      · simp (disch := decide) only [Version.src0_reg_type, get_set_self]
        rfl
      · simp only [indirectFields, List.cons_append, List.nil_append, holds_cons, holds_nil]
        simp (disch := decide) only [get_set_self, get_set_of_disjoint, and_true]
        and_intros <;> rfl
  | gen8 =>
    have hfile : ∀ x : BitVec 2, get Gen8.src0_reg_file (set Gen8.src0_reg_type (u32 reg.type)
        (set Gen8.src0_reg_file (u32 x) insn.bits1)) = truncate 2 (u32 x) := by
      intro x
      simp (disch := decide) only [get_set_self, get_set_of_disjoint]
      rfl
    have htype : ∀ x : BitVec 2, get Gen8.src0_reg_type (set Gen8.src0_reg_type (u32 reg.type)
        (set Gen8.src0_reg_file (u32 x) insn.bits1)) = truncate 4 (u32 reg.type) :=
      fun x => get_set_self _ _ _ _ (by decide)
    simp only [Version.setSrc0, Gen8.setSrc0] at h
    split_ifs at h with hnr hmode himm hlong <;> obtain rfl := Option.some.inj h
    · refine ⟨?_, htype _, fun _ h => absurd himm h, fun h => absurd hmode h, fun _ _ => ?_⟩
      · rw [if_pos hmode]
        exact hfile _
      · rw [if_pos ⟨rfl, hlong⟩]
        refine BitVec.eq_of_getLsbD_eq fun i hi => ?_
        rw [BitVec.getLsbD_append, BitVec.getLsbD_setWidth, BitVec.getLsbD_setWidth,
          BitVec.getLsbD_ushiftRight]
        by_cases hlow : i < 32
        · simp [hlow]
        · simp [hlow, show i - 32 < 32 by omega, show 32 + (i - 32) = i by omega]
    · refine ⟨?_, htype _, fun _ h => absurd himm h, fun h => absurd hmode h, fun _ _ => ?_⟩
      · rw [if_pos hmode]
        exact hfile _
      · rw [if_neg fun h => hlong h.2]
    · refine ⟨?_, htype _, fun _ _ => hdirect hmode, fun h => absurd hmode h,
        fun _ h => absurd h himm⟩
      rw [if_pos hmode]
      exact hfile _
    · refine ⟨?_, htype _, fun h => absurd h hmode, fun _ => ?_, fun h => absurd h hmode⟩
      · rw [if_neg hmode]
        exact hfile _
      · simp only [indirectFields, List.cons_append, List.nil_append, holds_cons, holds_nil]
        simp (disch := decide) only [get_set_self, get_set_of_disjoint, and_true]
        and_intros <;> rfl

end

/-! ### Reading an instruction back -/

section

variable {v : Version} {curr : GenInstructionState} {insn n : Native} {opcode : BitVec 7}
  {dst src0 : GenRegister} {src1 : Option GenRegister} {size : BitVec 32}

/-- The state comes back from a header, whatever the opcode. -/
theorem readState_setHeader (hblank : Blank opcode insn) (h : v.setHeader curr insn = some n) :
    v.readState n = stateOf curr := by
  cases v with
  | gen7 =>
    obtain ⟨size, hsize, hheader, -, hflags⟩ := setHeader_gen7_assign h
    have hopcode : get Header.opcode n.header = get Header.opcode insn.header := by
      rw [hheader]
      refine get_assign_of_apart (by decide) ?_
      rw [headerWrites, predicateWrites]
      split <;> simp <;> decide
    obtain ⟨h1, h2, h3, h4, h5, h6, h7⟩ := read_headerWrites hblank (Or.inl rfl) hsize hheader
    show Gen7.readState n = _
    rw [Gen7.readState, stateOf, hopcode, h1, h2, h3, h4, h5, h6, h7]
    by_cases hsrc3 : isSrc3 (get Header.opcode insn.header)
    · have hapart : [Gen7.nib_ctrl, Gen7.da3src_flag_reg_nr,
          Gen7.da3src_flag_sub_reg_nr].Pairwise Apart := by decide
      rw [if_pos hsrc3] at hflags
      rw [if_pos hsrc3, if_pos hsrc3, hflags.1,
        read_assign (f := Gen7.da3src_flag_reg_nr) (x := curr.flag) (by decide) (by decide)
          (by exact hapart) (by simp),
        read_assign (f := Gen7.da3src_flag_sub_reg_nr) (x := curr.subFlag) (by decide) (by decide)
          (by exact hapart) (by simp),
        read_assign (f := Gen7.nib_ctrl) (x := curr.nibControl) (by decide) (by decide)
          (by exact hapart) (by simp)]
    · have hapart : [Gen7.flag_reg_nr, Gen7.flag_sub_reg_nr].Pairwise Apart := by decide
      rw [if_neg hsrc3] at hflags
      rw [if_neg hsrc3, if_neg hsrc3, hflags.1, hflags.2,
        read_assign (f := Gen7.flag_reg_nr) (x := curr.flag) (by decide) (by decide)
          (by exact hapart) (by simp),
        read_assign (f := Gen7.flag_sub_reg_nr) (x := curr.subFlag) (by decide) (by decide)
          (by exact hapart) (by simp),
        read_assign (f := Gen7.nib_ctrl) (x := curr.nibControl) (by decide) (by decide)
          (List.pairwise_singleton _ _) (by simp)]
  | gen8 =>
    obtain ⟨size, hsize, hheader, hbits1, -⟩ := setHeader_gen8_assign h
    obtain ⟨h1, h2, h3, h4, h5, h6, h7⟩ := read_headerWrites hblank (Or.inr rfl) hsize hheader
    have hapart : [Gen8.mask_control, Gen8.flag_reg_nr, Gen8.flag_sub_reg_nr].Pairwise Apart := by
      decide
    show Gen8.readState n = _
    rw [Gen8.readState, stateOf, h1, h2, h3, h4, h5, h6, h7, hbits1,
      read_assign (f := Gen8.flag_reg_nr) (x := curr.flag) (by decide) (by decide)
          (by exact hapart) (by simp),
      read_assign (f := Gen8.flag_sub_reg_nr) (x := curr.subFlag) (by decide) (by decide)
          (by exact hapart) (by simp),
      read_assign (f := Gen8.mask_control) (x := curr.noMask) (by decide) (by decide)
          (by exact hapart) (by simp)]

/-- The fields of the state in `bits1`. -/
def Version.stateFields : Version → List Field
  | gen7 => [Gen7.nib_ctrl]
  | gen8 => [Gen8.mask_control, Gen8.flag_reg_nr, Gen8.flag_sub_reg_nr]

theorem readState_congr (hsrc3 : ¬ isSrc3 (get Header.opcode insn.header))
    (hheader : n.header = insn.header)
    (hbits1 : ∀ f ∈ v.stateFields, get f n.bits1 = get f insn.bits1)
    (hbits2 : v = .gen7 → ∀ f : Field, f.lo + f.width ≤ 32 → 25 ≤ f.lo →
      get f n.bits2 = get f insn.bits2) : v.readState n = v.readState insn := by
  cases v with
  | gen7 =>
    simp only [Version.stateFields, List.forall_mem_cons] at hbits1
    simp only [Version.readState, Gen7.readState, read, hheader, if_neg hsrc3, hbits1.1,
      hbits2 rfl Gen7.flag_reg_nr (by decide) (by decide),
      hbits2 rfl Gen7.flag_sub_reg_nr (by decide) (by decide)]
  | gen8 =>
    simp only [Version.stateFields, List.forall_mem_cons] at hbits1
    simp only [Version.readState, Gen8.readState, read, hheader, hbits1.1, hbits1.2.1,
      hbits1.2.2.1]

/-- What the operands need of the header, and the words that it leaves to them. -/
theorem setHeader_words (hblank : Blank opcode insn) (h : v.setHeader curr insn = some n) :
    ∃ size, executionSize curr.execWidth = some size ∧
      get Header.opcode n.header = u32 opcode ∧ get Header.access_mode n.header = 0 ∧
      get Header.execution_size n.header = truncate 3 size ∧
      (v = .gen8 → get ⟨15, 1⟩ n.bits1 = 0) ∧ n.bits3 = 0 := by
  have hkeeps : ∀ {f : Field} {y size : BitVec 32}, f = Gen7.mask_control ∨ f = Gen8.nib_ctrl →
      n.header = assign (headerWrites f y curr size) insn.header →
      get Header.opcode n.header = u32 opcode ∧ get Header.access_mode n.header = 0 ∧
        get Header.execution_size n.header = truncate 3 size := by
    intro f y size hf hheader
    have hothers : ∀ g, g = Header.opcode ∨ g = Header.access_mode →
        get g n.header = get g insn.header := by
      intro g hg
      rw [hheader]
      refine get_assign_of_apart ?_ ?_
      · rcases hg with rfl | rfl <;> decide
      · rw [headerWrites, predicateWrites]
        rcases hf with rfl | rfl <;> rcases hg with rfl | rfl <;> split <;> simp <;> decide
    refine ⟨(hothers _ (Or.inl rfl)).trans hblank.opcode_eq, (hothers _ (Or.inr rfl)).trans
      (hblank.header _ (by decide) (by decide) (by decide)), ?_⟩
    rw [hheader]
    exact get_assign (by decide) (headerWrites_apart hf y size)
      (List.mem_append_left _ (List.mem_append_left _ List.mem_cons_self))
  cases v with
  | gen7 =>
    obtain ⟨size, hsize, hheader, hbits3, -⟩ := setHeader_gen7_assign h
    obtain ⟨hopcode, haccess, hexec⟩ := hkeeps (Or.inl rfl) hheader
    exact ⟨size, hsize, hopcode, haccess, hexec, fun h => absurd h (by decide),
      hbits3.trans hblank.words.2.2⟩
  | gen8 =>
    obtain ⟨size, hsize, hheader, hbits1, -, hbits3⟩ := setHeader_gen8_assign h
    obtain ⟨hopcode, haccess, hexec⟩ := hkeeps (Or.inr rfl) hheader
    refine ⟨size, hsize, hopcode, haccess, hexec, fun _ => ?_, hbits3.trans hblank.words.2.2⟩
    have hapart : ∀ g ∈ [Gen8.mask_control, Gen8.flag_reg_nr, Gen8.flag_sub_reg_nr],
        Apart ⟨15, 1⟩ g := by decide
    rw [hbits1, hblank.words.1, get_assign_of_apart (by decide) (by exact hapart), get_zero]

theorem dstWrites_apart (dest : GenRegister) :
    ((dstWrites v dest).map Prod.fst).Pairwise Apart := by
  cases v with
  | gen7 => exact (by decide : [Gen7.dest_reg_file, Gen7.dest_reg_type, Gen7.dest_address_mode,
      Gen7.dest_reg_nr, Gen7.dest_subreg_nr, Gen7.dest_horiz_stride].Pairwise Apart)
  | gen8 => exact (by decide : [Gen8.dest_reg_file, Gen8.dest_reg_type, Gen7.dest_address_mode,
      Gen7.dest_reg_nr, Gen7.dest_subreg_nr, Gen7.dest_horiz_stride].Pairwise Apart)

/-- The fields of a destination are in the word, and apart from the sources and the state. -/
theorem dstWrites_place (dest : GenRegister) :
    ∀ f ∈ (dstWrites v dest).map Prod.fst, f.lo + f.width ≤ 32 ∧ Apart f v.srcArea ∧
      (∀ g ∈ v.stateFields, Apart g f) ∧ (v = .gen8 → Apart ⟨15, 1⟩ f) := by
  cases v with
  | gen7 => exact (by decide : ∀ f ∈ [Gen7.dest_reg_file, Gen7.dest_reg_type,
      Gen7.dest_address_mode, Gen7.dest_reg_nr, Gen7.dest_subreg_nr, Gen7.dest_horiz_stride],
      f.lo + f.width ≤ 32 ∧ Apart f Version.gen7.srcArea ∧
        (∀ g ∈ Version.gen7.stateFields, Apart g f) ∧
          (Version.gen7 = .gen8 → Apart ⟨15, 1⟩ f))
  | gen8 => exact (by decide : ∀ f ∈ [Gen8.dest_reg_file, Gen8.dest_reg_type,
      Gen7.dest_address_mode, Gen7.dest_reg_nr, Gen7.dest_subreg_nr, Gen7.dest_horiz_stride],
      f.lo + f.width ≤ 32 ∧ Apart f Version.gen8.srcArea ∧
        (∀ g ∈ Version.gen8.stateFields, Apart g f) ∧
          (Version.gen8 = .gen8 → Apart ⟨15, 1⟩ f))

theorem stateFields_place : ∀ f ∈ v.stateFields, f.lo + f.width ≤ 32 ∧ Apart f v.srcArea := by
  cases v <;> decide

/-- The sources of an instruction. -/
theorem sources_words {m : Native} (hsize : executionSize curr.execWidth = some size)
    (haccess : get Header.access_mode insn.header = 0)
    (hexec : get Header.execution_size insn.header = truncate 3 size) (hbits3 : insn.bits3 = 0)
    (hsrc0 : v.setSrc0 insn src0 = some m)
    (hsrc1 : (match src1 with
      | none => some m
      | some src1 => v.setSrc1 m src1) = some n) :
    Src0Words v curr src0 n ∧ (∀ r ∈ src1, v.readSrc1 n = operandOf curr r ↔ Src1Fits v r) ∧
      n.header = insn.header ∧
      (∀ f : Field, f.lo + f.width ≤ 32 → Apart f v.srcArea →
        get f n.bits1 = get f insn.bits1) ∧
      (v = .gen7 → ∀ f : Field, f.lo + f.width ≤ 32 → 25 ≤ f.lo →
        get f n.bits2 = get f insn.bits2) := by
  have hwords := setSrc0_words hsrc0 hsize haccess hexec
  obtain ⟨hheader, hbits1, hbits2, hthird⟩ := setSrc0_keeps hsrc0
  cases src1 with
  | none =>
    obtain rfl := Option.some.inj hsrc1
    exact ⟨hwords, fun _ h => absurd h (by simp), hheader, hbits1, hbits2⟩
  | some r =>
    obtain ⟨hheader', hnot, hkeeps⟩ := setSrc1_keeps hsrc1
    have himm : src0.address_mode ≠ 0 ∨ src0.file ≠ GEN_IMMEDIATE_VALUE := by
      by_contra hcon
      push Not at hcon
      refine hnot (hwords.file.trans ?_)
      rw [if_pos hcon.1, hcon.2]
      decide
    refine ⟨hwords.setSrc1 hsrc1, ?_, hheader'.trans hheader, fun f hf hapart => ?_,
      fun hv f hf hlo => ?_⟩
    · intro r' hr'
      obtain rfl : r = r' := by simpa using hr'
      exact readSrc1_iff hsrc1 hsize (hheader ▸ haccess) (hheader ▸ hexec)
        ((hthird himm).trans hbits3)
    · refine Eq.trans ?_ (hbits1 f hf hapart)
      cases v with
      | gen7 =>
        refine hkeeps.2 f hf ?_
        simp only [Apart, Version.srcArea] at hapart ⊢
        omega
      | gen8 => exact congrArg _ hkeeps.1
    · refine Eq.trans ?_ (hbits2 hv f hf hlo)
      subst hv
      exact congrArg _ hkeeps.1

end

/-- What comes back of an instruction is what it was given, exactly when that fits its fields. -/
theorem encode_iff (v : Version) (curr : GenInstructionState) (opcode : BitVec 7)
    (condition : BitVec 32) (dst src0 : GenRegister) (src1 : Option GenRegister) :
    (∀ n, v.setHeader curr (start opcode condition) = some n →
        (v.readState n = curr ↔ StateFits curr)) ∧
      (¬ isSrc3 (u32 opcode) →
        ∀ n, encode v curr (start opcode condition) dst src0 src1 = some n →
          ((v.readState n = curr ∧ v.readDest n = destOf dst ∧
              v.readSrc0 n = operandOf curr src0 ∧
              ∀ r ∈ src1, v.readSrc1 n = operandOf curr r) ↔
            StateFits curr ∧ DestFits v dst ∧ Src0Fits v src0 ∧ ∀ r ∈ src1, Src1Fits v r)) := by
  have hblank := blank_start opcode condition
  refine ⟨fun n h => ?_, fun hsrc3 n h => ?_⟩
  · rw [readState_setHeader hblank h, stateOf_eq_iff]
  obtain ⟨i1, hhead, h⟩ := Option.bind_eq_some_iff.mp h
  obtain ⟨i2, hdst, h⟩ := Option.bind_eq_some_iff.mp h
  obtain ⟨i3, hsrc0, hsrc1⟩ := Option.bind_eq_some_iff.mp h
  obtain ⟨size, hsize, hopcode, haccess, hexec, hpad, hbits3⟩ := setHeader_words hblank hhead
  obtain rfl := setDst_assign hdst
  obtain ⟨hwords, hsecond, hheader, hbits1, hbits2⟩ :=
    sources_words hsize (by exact haccess) (by exact hexec) (by exact hbits3) hsrc0 hsrc1
  have hplace := dstWrites_place (v := v) dst
  have hstate : v.readState n = v.readState i1 := by
    refine readState_congr (hopcode ▸ hsrc3) hheader (fun f hf => ?_) hbits2
    obtain ⟨hwidth, hapart⟩ := stateFields_place f hf
    refine (hbits1 f hwidth hapart).trans ?_
    exact get_assign_of_apart hwidth fun g hg => (hplace g hg).2.2.1 f hf
  have hdest : v.readDest n = destOf dst ↔ DestFits v dst := by
    refine readDest_iff (fun p hp => ?_) fun hv => ?_
    · obtain ⟨hwidth, hapart, -⟩ := hplace p.1 (List.mem_map_of_mem hp)
      exact (hbits1 _ hwidth hapart).trans (get_assign hwidth (dstWrites_apart dst) hp)
    · have hapart : Apart ⟨15, 1⟩ v.srcArea := by
        subst hv
        decide
      refine (hbits1 _ (by decide) hapart).trans (Eq.trans ?_ (hpad hv))
      exact get_assign_of_apart (by decide) fun g hg => (hplace g hg).2.2.2 hv
  rw [hstate, readState_setHeader hblank hhead, stateOf_eq_iff, hdest, readSrc0_iff hwords,
    forall₂_congr hsecond]

/-- `r10.8<8;8,1>:ud` on eight lanes. -/
def vector : GenRegister where
  value := 0
  nr := 10
  subnr := 8
  type := 0
  file := GEN_GENERAL_REGISTER_FILE
  negation := 0
  absolute := 0
  vstride := 4
  width := 3
  hstride := 1
  address_mode := 0
  a0_subnr := 0
  addr_imm := 0

def predicated : GenInstructionState where
  flag := 1
  subFlag := 1
  execWidth := 8
  quarterControl := 1
  nibControl := 0
  accWrEnable := 0
  noMask := 0
  predicate := 1
  inversePredicate := 1
  saturate := 0

/-- An address of a source, 16 bytes before `a0`. -/
def before : GenRegister := { vector with address_mode := 1, addr_imm := -16 }

theorem encode_iff_and : ∃ n,
    encode .gen7 predicated (start GEN_OPCODE_AND 0) vector vector (some vector) = some n ∧
      Version.gen7.readState n = predicated ∧ Version.gen7.readDest n = destOf vector ∧
      Version.gen7.readSrc0 n = operandOf predicated vector ∧
      ∀ r ∈ some vector, Version.gen7.readSrc1 n = operandOf predicated r :=
  ⟨_, rfl, ((encode_iff .gen7 predicated GEN_OPCODE_AND 0 vector vector (some vector)).2
    (by decide) _ rfl).mpr (by decide)⟩

/-- The high bit of a negative offset is not encoded. -/
theorem before_lost : ∃ n,
    encode .gen8 predicated (start GEN_OPCODE_MOV 0) vector before none = some n ∧
    Version.gen8.readSrc0 n = operandOf predicated { before with addr_imm := 496 } ∧
    Version.gen8.readSrc0 n ≠ operandOf predicated before :=
  ⟨_, rfl, by decide⟩

end Compact
