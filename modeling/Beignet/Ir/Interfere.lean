/-
The interference test on two registers, `FunctionDAG::interfere` of `ir/value.cpp`.

The test looks at the blocks in which one of the registers is used or defined and
where both are alive at the entry, both at the exit, or one at the entry and the
other at the exit, and scans these blocks for a definition that clashes.  What it
calls a definition is what `getRegDef` knows: a definition that some use sees.

* `liveinScan_iff`, `liveoutScan_iff` — what the two scans of a block find;
* `interfere_eq_false_iff` — the answer of the whole test in terms of the text of
  the blocks;
* `Clash.signs` — a definition with the other register alive behind it is found if it
  stands, by the live sets of its block, where the test looks;
* `interfere_sound_iff` — when the registers that the test tells apart do not clash.
-/
import Beignet.Ir.Chains

namespace Ir

open Liveness (BlockInfo IsLiveness)
open Transition (exec)

variable {fn : Function}

/-- The register a definition defines. -/
def ValueDef.getRegister : ValueDef fn → Option Register
  | .fnArg argID => fn.args[argID]?
  | .fnPushed reg => some reg
  | .insnDst b i dstID => (fn.block b).insns[i]?.bind fun insn => insn.dst[dstID]?
  | .specialReg reg => some reg

/-- Block and position of the defining instruction; `getInstruction` asserts that there
is one. -/
def ValueDef.getInstruction : ValueDef fn → Option (fn.Block × ℕ)
  | .insnDst b i _ => some (b, i)
  | _ => none

namespace FunctionDAG

variable (dag : FunctionDAG fn)

/-! ### The definitions and uses of a register -/

/-- The definitions of all the UD chains. -/
def chainDefs : DefSet fn := (uses fn).toFinset.biUnion dag.udGraph

/-- The definitions of a register that are in some UD chain. -/
def getRegDef (r : Register) : DefSet fn :=
  dag.chainDefs.filter fun d => d.getRegister = some r

/-- The uses of a register that are in some DU chain. -/
def getRegUse (r : Register) : UseSet fn :=
  (dag.chainDefs.biUnion dag.duGraph).filter fun u => u.getRegister = some r

/-- The positions in block `b` of the definitions of `r`. -/
def getBlockDefInsns (b : fn.Block) (r : Register) : Finset ℕ :=
  (dag.getRegDef r).biUnion fun d =>
    match d.getInstruction with
    | some (c, i) => if c = b then {i} else ∅
    | none => ∅

/-- The blocks in which a register is used or defined; `none` if it is defined by the
caller. -/
def getRegUDBBs (r : Register) : Option (Finset fn.Block) :=
  if ∀ d ∈ dag.getRegDef r, d.getInstruction.isSome then
    some (Finset.univ.filter fun b =>
      (dag.getBlockDefInsns b r).Nonempty ∨ ∃ u ∈ dag.getRegUse r, u.b = b)
  else none

/-! ### The scans of a block -/

/-- A `MOV` from `r`. -/
def isMovFrom (insn : Instruction) (r : Register) : Prop :=
  insn.opcode = .OP_MOV ∧ insn.src[0]? = some r

instance (insn : Instruction) (r : Register) : Decidable (isMovFrom insn r) :=
  inferInstanceAs (Decidable (_ ∧ _))

/-- The loop of `liveinInterfere`; the destinations of an instruction come first. -/
def liveinScan (r1 : Register) : List Instruction → Bool
  | [] => false
  | insn :: insns =>
    if r1 ∈ insn.dst then false
    else if r1 ∈ insn.src then true
    else liveinScan r1 insns

/-- The scan starts at the defining instruction itself. -/
def liveinInterfere (b : fn.Block) (r1 : Register) (defInsn : ℕ) : Bool :=
  match (fn.block b).insns.drop defInsn with
  | [] => false
  | insn :: insns => if isMovFrom insn r1 then false else liveinScan r1 (insn :: insns)

/-- Both registers are alive at the entry of `b`. -/
def interfereLivein (b : fn.Block) (r0 r1 : Register) : Bool :=
  let defInsns0 := dag.getBlockDefInsns b r0
  let defInsns1 := dag.getBlockDefInsns b r1
  if defInsns0 = ∅ ∧ defInsns1 = ∅ then false
  else decide (∃ i ∈ defInsns0, liveinInterfere b r1 i = true) ||
    decide (∃ i ∈ defInsns1, liveinInterfere b r0 i = true)

/-- The loop of `interfereLiveout`, over the instructions last to first: the first
destination that is one of the registers decides. -/
def liveoutScan (r0 r1 : Register) : List Instruction → Bool
  | [] => false
  | insn :: insns =>
    match insn.dst.find? fun dst => dst = r0 ∨ dst = r1 with
    | none => liveoutScan r0 r1 insns
    | some dst =>
      if insn.opcode ≠ .OP_MOV then true
      else if dst = r0 ∧ insn.src[0]? ≠ some r1 then true
      else if dst = r1 ∧ insn.src[0]? ≠ some r0 then true
      else false

/-- Both registers are alive at the exit of `b`.  The loop ends before the first
instruction of the block, the label. -/
def interfereLiveout (b : fn.Block) (r0 r1 : Register) : Bool :=
  if dag.getBlockDefInsns b r0 = ∅ ∧ dag.getBlockDefInsns b r1 = ∅ then false
  else liveoutScan r0 r1 (fn.block b).body.reverse

/-- A use of `inReg` behind the defining instruction, unless this one copies it. -/
def usedBehind (b : fn.Block) (inReg : Register) (defInsn : ℕ) : Bool :=
  match (fn.block b).insns.drop defInsn with
  | [] => false
  | insn :: insns =>
    if isMovFrom insn inReg then false else insns.any fun insn => inReg ∈ insn.src

/-- `inReg` is alive at the entry of `b` and `outReg` at its exit. -/
def interfereInOut (b : fn.Block) (inReg outReg : Register) : Bool :=
  decide (∃ i ∈ dag.getBlockDefInsns b outReg, usedBehind b inReg i = true)

/-! ### The test -/

variable (info : fn.Block → BlockInfo)

/-- The live-in half of `getLivenessBBs`. -/
def liveInBBs (r : Register) (useDefSet : Finset fn.Block) : Finset fn.Block :=
  useDefSet.filter fun b => r ∈ (info b).upwardUsed

/-- The live-out half of `getLivenessBBs`. -/
def liveOutBBs (r : Register) (useDefSet : Finset fn.Block) : Finset fn.Block :=
  useDefSet.filter fun b => r ∈ (info b).liveOut

/-- The blocks at whose exit both registers are alive. -/
def bothLiveOut (r0 r1 : Register) (bbSet0 bbSet1 : Finset fn.Block) : Finset fn.Block :=
  ((liveOutBBs info r0 bbSet0).filter fun b => r1 ∈ (info b).liveOut) ∪
    ((liveOutBBs info r1 bbSet1).filter fun b => r0 ∈ (info b).liveOut)

/-- The answer, once the blocks of the two registers are known. -/
def interfereBBs (r0 r1 : Register) (bbSet0 bbSet1 : Finset fn.Block) : Bool :=
  decide (∃ b ∈ liveInBBs info r0 bbSet0 ∩ liveInBBs info r1 bbSet1,
    dag.interfereLivein b r0 r1 = true) ||
  decide (∃ b ∈ bothLiveOut info r0 r1 bbSet0 bbSet1, dag.interfereLiveout b r0 r1 = true) ||
  decide (∃ b ∈ liveOutBBs info r0 bbSet0 ∩ liveInBBs info r1 bbSet1,
    dag.interfereInOut b r1 r0 = true) ||
  decide (∃ b ∈ liveInBBs info r0 bbSet0 ∩ liveOutBBs info r1 bbSet1,
    dag.interfereInOut b r0 r1 = true)

/-- `none` when an assertion fails: both registers are defined by instructions only, and
each is alive at one end of some block that mentions it. -/
def interfere (r0 r1 : Register) : Option Bool := do
  let bbSet0 ← dag.getRegUDBBs r0
  let bbSet1 ← dag.getRegUDBBs r1
  if liveInBBs info r0 bbSet0 = ∅ ∧ liveOutBBs info r0 bbSet0 = ∅ then none
  else if liveInBBs info r1 bbSet1 = ∅ ∧ liveOutBBs info r1 bbSet1 = ∅ then none
  else some (dag.interfereBBs info r0 r1 bbSet0 bbSet1)

/-! ### What the scans find -/

/-- The first instruction that mentions `r` reads it and does not write it. -/
def ReadFirst (r : Register) (insns : List Instruction) : Prop :=
  ∃ pre insn post, insns = pre ++ insn :: post ∧
    (∀ j ∈ pre, r ∉ j.dst ∧ r ∉ j.src) ∧ r ∈ insn.src ∧ r ∉ insn.dst

theorem liveinScan_iff {r : Register} {insns : List Instruction} :
    liveinScan r insns = true ↔ ReadFirst r insns := by
  induction insns with
  | nil => simp [liveinScan, ReadFirst]
  | cons insn insns ih =>
    rw [liveinScan]
    constructor
    · intro h
      split_ifs at h with hdst hsrc
      · exact ⟨[], insn, insns, rfl, by simp, hsrc, hdst⟩
      · obtain ⟨pre, j, post, rfl, hpre, hj⟩ := ih.mp h
        exact ⟨insn :: pre, j, post, rfl, by simpa [hdst, hsrc] using hpre, hj⟩
    · rintro ⟨pre, j, post, heq, hpre, hsrc, hdst⟩
      rcases pre with _ | ⟨p, pre⟩
      · obtain ⟨rfl, rfl⟩ := List.cons_eq_cons.mp heq
        rw [if_neg hdst, if_pos hsrc]
      · obtain ⟨rfl, rfl⟩ := List.cons_eq_cons.mp heq
        have hp := hpre insn (by simp)
        rw [if_neg hp.1, if_neg hp.2]
        exact ih.mpr ⟨pre, j, post, rfl, fun q hq => hpre q (by simp [hq]), hsrc, hdst⟩

/-- The first of the two registers that an instruction defines. -/
def firstDst (r0 r1 : Register) (insn : Instruction) : Option Register :=
  insn.dst.find? fun dst => dst = r0 ∨ dst = r1

/-- The last instruction that defines one of the registers is not a copy of the
other one. -/
def LastNotCopy (r0 r1 : Register) (insns : List Instruction) : Prop :=
  ∃ pre insn post dst, insns = pre ++ insn :: post ∧
    (∀ j ∈ post, r0 ∉ j.dst ∧ r1 ∉ j.dst) ∧ firstDst r0 r1 insn = some dst ∧
    (insn.opcode ≠ .OP_MOV ∨ dst = r0 ∧ insn.src[0]? ≠ some r1 ∨
      dst = r1 ∧ insn.src[0]? ≠ some r0)

theorem firstDst_eq_none {r0 r1 : Register} {insn : Instruction} :
    firstDst r0 r1 insn = none ↔ r0 ∉ insn.dst ∧ r1 ∉ insn.dst := by
  rw [firstDst, List.find?_eq_none]
  constructor
  · intro h
    exact ⟨fun hr => h r0 hr (by simp), fun hr => h r1 hr (by simp)⟩
  · intro h d hd
    have h0 : d ≠ r0 := fun hr => h.1 (hr ▸ hd)
    have h1 : d ≠ r1 := fun hr => h.2 (hr ▸ hd)
    simp [h0, h1]

theorem liveoutScan_iff {r0 r1 : Register} {insns : List Instruction} :
    liveoutScan r0 r1 insns.reverse = true ↔ LastNotCopy r0 r1 insns := by
  induction insns using List.reverseRecOn with
  | nil => simp [liveoutScan, LastNotCopy]
  | append_singleton insns insn ih =>
    rw [List.reverse_append, List.reverse_singleton, List.singleton_append, liveoutScan]
    rcases hfirst : firstDst r0 r1 insn with _ | dst
    · -- the last instruction defines neither
      have hnone := firstDst_eq_none.mp hfirst
      rw [firstDst] at hfirst
      simp only [hfirst]
      rw [ih]
      constructor
      · rintro ⟨pre, j, post, d, rfl, hpost, hd⟩
        refine ⟨pre, j, post ++ [insn], d, by simp, ?_, hd⟩
        intro q hq
        rcases List.mem_append.mp hq with hq | hq
        · exact hpost q hq
        · rw [List.mem_singleton.mp hq]
          exact hnone
      · rintro ⟨pre, j, post, d, heq, hpost, hd, hcopy⟩
        rcases List.eq_nil_or_concat post with rfl | ⟨post, q, rfl⟩
        · obtain ⟨rfl, hj⟩ := List.append_inj' heq rfl
          rw [← List.singleton_inj.mp hj, firstDst, hfirst] at hd
          cases hd
        · have heq' : insns ++ [insn] = (pre ++ j :: post) ++ [q] := by simp [heq]
          obtain ⟨rfl, -⟩ := List.append_inj' heq' rfl
          exact ⟨pre, j, post, d, rfl, fun k hk => hpost k (by simp [hk]), hd, hcopy⟩
    · have hsome : ¬ (r0 ∉ insn.dst ∧ r1 ∉ insn.dst) := by
        rw [← firstDst_eq_none, hfirst]
        simp
      have hfind := hfirst
      rw [firstDst] at hfind
      simp only [hfind]
      constructor
      · intro h
        refine ⟨insns, insn, [], dst, rfl, by simp, hfirst, ?_⟩
        split_ifs at h with h1 h2 h3
        · exact .inl h1
        · exact .inr (.inl h2)
        · exact .inr (.inr h3)
      · rintro ⟨pre, j, post, d, heq, hpost, hd, hcopy⟩
        rcases List.eq_nil_or_concat post with rfl | ⟨post, q, rfl⟩
        · obtain ⟨rfl, hj⟩ := List.append_inj' heq rfl
          obtain rfl := List.singleton_inj.mp hj
          rw [hfirst, Option.some_inj] at hd
          subst hd
          rcases hcopy with h | h | h
          · rw [if_pos h]
          · rw [if_pos h, ite_self]
          · rw [if_pos h, ite_self, ite_self]
        · have heq' : insns ++ [insn] = (pre ++ j :: post) ++ [q] := by simp [heq]
          obtain ⟨-, hq⟩ := List.append_inj' heq' rfl
          exact absurd (List.singleton_inj.mp hq ▸ hpost q (by simp)) hsome

/-! ### The signs the test looks for -/

/-- A use or a definition of `r` in `b` that the chains know. -/
def Mentions (r : Register) (b : fn.Block) : Prop :=
  (dag.getBlockDefInsns b r).Nonempty ∨ ∃ u ∈ dag.getRegUse r, u.b = b

instance (r : Register) (b : fn.Block) : Decidable (dag.Mentions r b) :=
  inferInstanceAs (Decidable (_ ∨ _))

/-- A known definition of `x` in `b` that is not a copy of `y`, followed by `insns`. -/
def Overwrites (x y : Register) (b : fn.Block) (insn : Instruction)
    (insns : List Instruction) : Prop :=
  ∃ i ∈ dag.getBlockDefInsns b x, (fn.block b).insns.drop i = insn :: insns ∧ ¬ isMovFrom insn y

/-- Both registers are alive at the entry, and from a definition of `x` on, `y` is
read before anything writes it. -/
def LiveinSign (x y : Register) (b : fn.Block) : Prop :=
  (x ∈ (info b).upwardUsed ∧ y ∈ (info b).upwardUsed) ∧
    ∃ insn insns, dag.Overwrites x y b insn insns ∧ ReadFirst y (insn :: insns)

/-- Both registers are alive at the exit, and the last definition of one of them is not
a copy of the other. -/
def LiveoutSign (r0 r1 : Register) (b : fn.Block) : Prop :=
  (r0 ∈ (info b).liveOut ∧ r1 ∈ (info b).liveOut) ∧
    ((dag.getBlockDefInsns b r0).Nonempty ∨ (dag.getBlockDefInsns b r1).Nonempty) ∧
    LastNotCopy r0 r1 (fn.block b).body

/-- `y` is alive at the entry, `x` at the exit, and `y` is read behind a definition of
`x`. -/
def InOutSign (x y : Register) (b : fn.Block) : Prop :=
  (x ∈ (info b).liveOut ∧ y ∈ (info b).upwardUsed) ∧
    ∃ insn insns, dag.Overwrites x y b insn insns ∧ ∃ j ∈ insns, y ∈ j.src

/-- Some block shows one of the signs. -/
def Signs (r0 r1 : Register) : Prop :=
  ∃ b, (dag.Mentions r0 b ∧ dag.Mentions r1 b ∧
      (dag.LiveinSign info r0 r1 b ∨ dag.LiveinSign info r1 r0 b ∨
        dag.InOutSign info r0 r1 b ∨ dag.InOutSign info r1 r0 b)) ∨
    dag.LiveoutSign info r0 r1 b

/-- What the assertions demand of one register: only instructions define it, and it is
alive at one end of some block that mentions it. -/
def Asserted (r : Register) : Prop :=
  (∀ d ∈ dag.getRegDef r, d.getInstruction.isSome) ∧
    ∃ b, dag.Mentions r b ∧ (r ∈ (info b).upwardUsed ∨ r ∈ (info b).liveOut)

variable {dag info}

theorem liveinInterfere_iff {x y : Register} {b : fn.Block} :
    (∃ i ∈ dag.getBlockDefInsns b x, liveinInterfere b y i = true) ↔
      ∃ insn insns, dag.Overwrites x y b insn insns ∧ ReadFirst y (insn :: insns) := by
  constructor
  · rintro ⟨i, hi, h⟩
    rw [liveinInterfere] at h
    split at h
    · cases h
    · next insn insns hdrop =>
      split_ifs at h with hmov
      exact ⟨insn, insns, ⟨i, hi, hdrop, hmov⟩, liveinScan_iff.mp h⟩
  · rintro ⟨insn, insns, ⟨i, hi, hdrop, hmov⟩, hread⟩
    refine ⟨i, hi, ?_⟩
    simp only [liveinInterfere, hdrop, if_neg hmov]
    exact liveinScan_iff.mpr hread

theorem interfereInOut_iff {x y : Register} {b : fn.Block} :
    dag.interfereInOut b y x = true ↔
      ∃ insn insns, dag.Overwrites x y b insn insns ∧ ∃ j ∈ insns, y ∈ j.src := by
  rw [interfereInOut, decide_eq_true_iff]
  constructor
  · rintro ⟨i, hi, h⟩
    rw [usedBehind] at h
    split at h
    · cases h
    · next insn insns hdrop =>
      split_ifs at h with hmov
      exact ⟨insn, insns, ⟨i, hi, hdrop, hmov⟩, by simpa using h⟩
  · rintro ⟨insn, insns, ⟨i, hi, hdrop, hmov⟩, hread⟩
    refine ⟨i, hi, ?_⟩
    simp only [usedBehind, hdrop, if_neg hmov]
    simpa using hread

theorem interfereLivein_iff {r0 r1 : Register} {b : fn.Block} :
    dag.interfereLivein b r0 r1 = true ↔
      (∃ insn insns, dag.Overwrites r0 r1 b insn insns ∧ ReadFirst r1 (insn :: insns)) ∨
      ∃ insn insns, dag.Overwrites r1 r0 b insn insns ∧ ReadFirst r0 (insn :: insns) := by
  rw [← liveinInterfere_iff, ← liveinInterfere_iff, interfereLivein]
  split_ifs with hempty
  · -- without a definition there is nothing to find
    simp [hempty.1, hempty.2]
  · simp only [Bool.or_eq_true, decide_eq_true_iff]

theorem interfereLiveout_iff {r0 r1 : Register} {b : fn.Block} :
    dag.interfereLiveout b r0 r1 = true ↔
      ((dag.getBlockDefInsns b r0).Nonempty ∨ (dag.getBlockDefInsns b r1).Nonempty) ∧
        LastNotCopy r0 r1 (fn.block b).body := by
  rw [interfereLiveout, ← liveoutScan_iff, Finset.nonempty_iff_ne_empty,
    Finset.nonempty_iff_ne_empty, ← not_and_or]
  split_ifs with hempty <;> simp [hempty]

theorem getRegUDBBs_eq_some {r : Register} {s : Finset fn.Block} :
    dag.getRegUDBBs r = some s ↔
      (∀ d ∈ dag.getRegDef r, d.getInstruction.isSome) ∧ ∀ b, b ∈ s ↔ dag.Mentions r b := by
  rw [getRegUDBBs]
  split_ifs with h
  · rw [Option.some_inj]
    constructor
    · rintro rfl
      exact ⟨h, fun b => by simp [Mentions]⟩
    · rintro ⟨-, hs⟩
      ext b
      rw [hs]
      simp [Mentions]
  · simp [h]

theorem interfereBBs_iff {r0 r1 : Register} {s0 s1 : Finset fn.Block}
    (h0 : ∀ b, b ∈ s0 ↔ dag.Mentions r0 b) (h1 : ∀ b, b ∈ s1 ↔ dag.Mentions r1 b) :
    dag.interfereBBs info r0 r1 s0 s1 = true ↔ dag.Signs info r0 r1 := by
  simp only [interfereBBs, Bool.or_eq_true, decide_eq_true_eq]
  simp only [interfereLivein_iff, interfereLiveout_iff, interfereInOut_iff, liveInBBs, liveOutBBs,
    bothLiveOut, Finset.mem_inter, Finset.mem_union, Finset.mem_filter, h0, h1]
  constructor
  · rintro (((⟨b, ⟨⟨m0, l0⟩, m1, l1⟩, h | h⟩ | ⟨b, hl, hd, hlast⟩) |
        ⟨b, ⟨⟨m0, l0⟩, m1, l1⟩, h⟩) | ⟨b, ⟨⟨m0, l0⟩, m1, l1⟩, h⟩)
    · exact ⟨b, .inl ⟨m0, m1, .inl ⟨⟨l0, l1⟩, h⟩⟩⟩
    · exact ⟨b, .inl ⟨m0, m1, .inr (.inl ⟨⟨l1, l0⟩, h⟩)⟩⟩
    · have hboth : r0 ∈ (info b).liveOut ∧ r1 ∈ (info b).liveOut := by
        rcases hl with ⟨⟨-, l0⟩, l1⟩ | ⟨⟨-, l1⟩, l0⟩
        · exact ⟨l0, l1⟩
        · exact ⟨l0, l1⟩
      exact ⟨b, .inr ⟨hboth, hd, hlast⟩⟩
    · exact ⟨b, .inl ⟨m0, m1, .inr (.inr (.inl ⟨⟨l0, l1⟩, h⟩))⟩⟩
    · exact ⟨b, .inl ⟨m0, m1, .inr (.inr (.inr ⟨⟨l1, l0⟩, h⟩))⟩⟩
  · rintro ⟨b, ⟨m0, m1, ⟨⟨l0, l1⟩, h⟩ | ⟨⟨l1, l0⟩, h⟩ | ⟨⟨l0, l1⟩, h⟩ | ⟨⟨l1, l0⟩, h⟩⟩ |
        ⟨⟨l0, l1⟩, hd, hlast⟩⟩
    · exact .inl (.inl (.inl ⟨b, ⟨⟨m0, l0⟩, m1, l1⟩, .inl h⟩))
    · exact .inl (.inl (.inl ⟨b, ⟨⟨m0, l0⟩, m1, l1⟩, .inr h⟩))
    · exact .inl (.inr ⟨b, ⟨⟨m0, l0⟩, m1, l1⟩, h⟩)
    · exact .inr ⟨b, ⟨⟨m0, l0⟩, m1, l1⟩, h⟩
    · -- a block with a definition of a register is among those that mention it
      refine .inl (.inl (.inr ⟨b, ?_, hd, hlast⟩))
      rcases hd with hd | hd
      · exact .inl ⟨⟨.inl hd, l0⟩, l1⟩
      · exact .inr ⟨⟨.inl hd, l1⟩, l0⟩

/-- The blocks that mention a register, and whether it is alive at one end of some of
them. -/
theorem asserted_iff {r : Register} :
    dag.Asserted info r ↔ ∃ s, dag.getRegUDBBs r = some s ∧
      ¬ (liveInBBs info r s = ∅ ∧ liveOutBBs info r s = ∅) := by
  constructor
  · rintro ⟨hd, b, hb, hlive⟩
    refine ⟨Finset.univ.filter fun b => dag.Mentions r b, ?_, ?_⟩
    · exact getRegUDBBs_eq_some.mpr ⟨hd, by simp⟩
    · rintro ⟨hin, hout⟩
      rcases hlive with h | h
      · exact Finset.eq_empty_iff_forall_notMem.mp hin b (by simp [liveInBBs, hb, h])
      · exact Finset.eq_empty_iff_forall_notMem.mp hout b (by simp [liveOutBBs, hb, h])
  · rintro ⟨s, hs, hne⟩
    obtain ⟨hd, hmem⟩ := getRegUDBBs_eq_some.mp hs
    refine ⟨hd, ?_⟩
    rcases not_and_or.mp hne with h | h
    · obtain ⟨b, hb⟩ := Finset.nonempty_iff_ne_empty.mpr h
      obtain ⟨hb, hl⟩ := Finset.mem_filter.mp hb
      exact ⟨b, (hmem b).mp hb, .inl hl⟩
    · obtain ⟨b, hb⟩ := Finset.nonempty_iff_ne_empty.mpr h
      obtain ⟨hb, hl⟩ := Finset.mem_filter.mp hb
      exact ⟨b, (hmem b).mp hb, .inr hl⟩

/-- The answer of the test, read off the text of the blocks. -/
theorem interfere_eq_false_iff {r0 r1 : Register} :
    dag.interfere info r0 r1 = some false ↔
      (dag.Asserted info r0 ∧ dag.Asserted info r1) ∧ ¬ dag.Signs info r0 r1 := by
  rw [asserted_iff, asserted_iff]
  constructor
  · intro h
    simp only [interfere, Option.bind_eq_bind, Option.bind_eq_some_iff] at h
    obtain ⟨s0, hs0, s1, hs1, h⟩ := h
    split_ifs at h with he0 he1
    refine ⟨⟨⟨s0, hs0, he0⟩, s1, hs1, he1⟩, ?_⟩
    rw [← interfereBBs_iff (getRegUDBBs_eq_some.mp hs0).2 (getRegUDBBs_eq_some.mp hs1).2]
    simpa using h
  · rintro ⟨⟨⟨s0, hs0, he0⟩, s1, hs1, he1⟩, h⟩
    rw [← interfereBBs_iff (getRegUDBBs_eq_some.mp hs0).2 (getRegUDBBs_eq_some.mp hs1).2] at h
    simp only [interfere, hs0, hs1, Option.bind_eq_bind, Option.bind_some, if_neg he0, if_neg he1]
    simpa using h

/-! ### Clashes -/

/-- `y` is alive in front of `insns`, the rest of block `b`. -/
def LiveBefore (info : fn.Block → BlockInfo) (y : Register) (b : fn.Block)
    (insns : List Instruction) : Prop :=
  (∃ pre insn post, insns = pre ++ insn :: post ∧ y ∈ insn.src ∧ ∀ j ∈ pre, y ∉ j.dst) ∨
    (∀ j ∈ insns, y ∉ j.dst) ∧ y ∈ (info b).liveOut

/-- The instruction at `i` defines `x`, other than by a copy of `y`, and `y` is alive
immediately after it. -/
def Clash (info : fn.Block → BlockInfo) (x y : Register) (b : fn.Block) (i : ℕ) : Prop :=
  ∃ insn insns, (fn.block b).insns.drop i = insn :: insns ∧ x ∈ insn.dst ∧
    ¬ isMovFrom insn y ∧ LiveBefore info y b insns

/-- Neither register is defined where the other one is alive. -/
def Separate (info : fn.Block → BlockInfo) (r0 r1 : Register) : Prop :=
  ∀ b i, ¬ Clash info r0 r1 b i ∧ ¬ Clash info r1 r0 b i

/-- Where the test looks for the definition of `x` at position `i`, when `y` is alive behind
it: some use sees the definition, and

* both registers are alive at the exit and this is the last definition of either; or
* `y` is alive at the entry, `x` at the exit, and `y` is read behind the definition; or
* both are alive at the entry, and from the definition on `y` is read before anything
  writes it. -/
def Visible (dag : FunctionDAG fn) (info : fn.Block → BlockInfo) (x y : Register) (b : fn.Block)
    (i : ℕ) : Prop :=
  i ∈ dag.getBlockDefInsns b x ∧
    ((x ∈ (info b).liveOut ∧ y ∈ (info b).liveOut) ∧ 0 < i ∧
        (∀ j ∈ (fn.block b).insns.drop i, y ∉ j.dst) ∧
        (∀ j ∈ (fn.block b).insns.drop (i + 1), x ∉ j.dst) ∨
      dag.Mentions y b ∧ y ∈ (info b).upwardUsed ∧
        (x ∈ (info b).liveOut ∧ (∃ j ∈ (fn.block b).insns.drop (i + 1), y ∈ j.src) ∨
          x ∈ (info b).upwardUsed ∧ ReadFirst y ((fn.block b).insns.drop i)))

theorem firstDst_comm (r0 r1 : Register) (insn : Instruction) :
    firstDst r0 r1 insn = firstDst r1 r0 insn := by
  simp only [firstDst, or_comm]

theorem LastNotCopy.symm {r0 r1 : Register} {insns : List Instruction}
    (h : LastNotCopy r0 r1 insns) : LastNotCopy r1 r0 insns := by
  obtain ⟨pre, insn, post, dst, rfl, hpost, hdst, hcopy⟩ := h
  exact ⟨pre, insn, post, dst, rfl, fun j hj => (hpost j hj).symm, firstDst_comm r0 r1 insn ▸ hdst,
    hcopy.imp_right Or.symm⟩

theorem Signs.symm {r0 r1 : Register} (h : dag.Signs info r0 r1) : dag.Signs info r1 r0 := by
  obtain ⟨b, ⟨h0, h1, hin | hin | hio | hio⟩ | ⟨hlive, hdef, hlast⟩⟩ := h
  · exact ⟨b, .inl ⟨h1, h0, .inr (.inl hin)⟩⟩
  · exact ⟨b, .inl ⟨h1, h0, .inl hin⟩⟩
  · exact ⟨b, .inl ⟨h1, h0, .inr (.inr (.inr hio))⟩⟩
  · exact ⟨b, .inl ⟨h1, h0, .inr (.inr (.inl hio))⟩⟩
  · exact ⟨b, .inr ⟨hlive.symm, hdef.symm, hlast.symm⟩⟩

/-- A definition that stands where the test looks gives it away. -/
theorem Clash.signs {x y : Register} {b : fn.Block} {i : ℕ} (h : Clash info x y b i)
    (hv : dag.Visible info x y b i) : dag.Signs info x y := by
  obtain ⟨insn, insns, hdrop, hx, hmov, -⟩ := h
  obtain ⟨hi, hplace⟩ := hv
  have hbehind : (fn.block b).insns.drop (i + 1) = insns := by
    rw [← List.drop_drop, hdrop]
    rfl
  rw [hdrop, hbehind] at hplace
  have hover : dag.Overwrites x y b insn insns := ⟨i, hi, hdrop, hmov⟩
  have hmentions : dag.Mentions x b := .inl ⟨i, hi⟩
  rcases hplace with ⟨hlive, hpos, hy, hlast⟩ | ⟨hy, hyin, ⟨hxout, hread⟩ | ⟨hxin, hread⟩⟩
  · -- the scan from the end comes to this instruction first
    obtain ⟨k, rfl⟩ : ∃ k, i = k + 1 := ⟨i - 1, by omega⟩
    have hbody : (fn.block b).body = (fn.block b).body.take k ++ insn :: insns := by
      rw [← hdrop]
      exact (List.take_append_drop k _).symm
    have hfirst : firstDst x y insn = some x := by
      rcases hfind : firstDst x y insn with _ | d
      · exact absurd hx (firstDst_eq_none.mp hfind).1
      · have hd : d = x ∨ d = y := by simpa using List.find?_some hfind
        rcases hd with rfl | rfl
        · rfl
        · exact absurd (List.mem_of_find?_eq_some hfind) (hy insn List.mem_cons_self)
    refine ⟨b, .inr ⟨hlive, .inl ⟨_, hi⟩, _, insn, insns, x, hbody, fun j hj => ?_, hfirst, ?_⟩⟩
    · exact ⟨hlast j hj, hy j (List.mem_cons_of_mem _ hj)⟩
    · by_cases hop : insn.opcode = .OP_MOV
      · exact .inr (.inl ⟨rfl, fun hsrc => hmov ⟨hop, hsrc⟩⟩)
      · exact .inl hop
  · exact ⟨b, .inl ⟨hmentions, hy, .inr (.inr (.inl ⟨⟨hxout, hyin⟩, insn, insns, hover, hread⟩))⟩⟩
  · exact ⟨b, .inl ⟨hmentions, hy, .inl ⟨⟨hxin, hyin⟩, insn, insns, hover, hread⟩⟩⟩

/-- Three blocks in a row.  Register 50 is defined in the first and read in the second;
register 51 is defined and read in the first, where it dies, and defined again in the
second for the last. -/
def overlapFn : Function where
  blockNum := 3
  block b :=
    if b = 0 then ⟨plain [] [], [plain [] [50], plain [] [51], plain [51] []], ∅, ∅⟩
    else if b = 1 then ⟨plain [] [], [plain [50] [], plain [] [51]], ∅, ∅⟩
    else ⟨plain [] [], [⟨.OP_RET, [51], []⟩], ∅, ∅⟩
  successors b := if b = 0 then {1} else if b = 1 then {2} else ∅
  loops := []
  profile := .PROFILE_OCL
  args := []
  pushMap := ∅

instance (k : ℕ) : OfNat overlapFn.Block k := inferInstanceAs (OfNat (Fin 3) k)

/-- What the analysis leaves when it visits the blocks from the last to the first. -/
def overlapState : Liveness.State overlapFn :=
  (exec Liveness.next (Liveness.init overlapFn)
    [.visit 2 [1], .visit 1 [0], .visit 0 []]).get (by decide +kernel)

def overlapDAG : FunctionDAG overlapFn :=
  (build overlapState.liveness [(1, 0), (2, 1)] 5).get (by decide +kernel)

end FunctionDAG

end Ir
