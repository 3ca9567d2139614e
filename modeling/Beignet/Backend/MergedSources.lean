/-
When instruction selection preserves a block.

A child that is merged into a root is computed later than it was written, from the
registers that hold its sources.  Between the two places a generated instruction may have
written one of them.  `SelectModifierInstructionPattern` compares the definitions; the
multiply-add and the reciprocal square root do not, and the narrowed conversion takes the
64-bit operation that it merges from the table of the whole block.

* `emitted_iff_demanded` — what is generated: the roots and what their patterns ask for;
* `stable_iff` — the sources of merged children that must not be written;
* `allCurrent_iff` — then, and only then, the code reads the definitions of the IR;
* `matchBasicBlock_preserves_iff` — then, and only then, the block is preserved.
-/
import Beignet.Backend.MunchCorrect

namespace Munch

variable {cfg : Config} {block : List Insn} {liveOut : List Reg}

/-! ### What is generated -/

/-- An instruction that is generated: a root, or a node that the pattern of a generated
instruction behind it marks. -/
inductive Demanded (cfg : Config) (block : List Insn) (liveOut : List Reg) : ℕ → Prop
  | root {i : ℕ} {x : Insn} (hx : block[i]? = some x) (h : isRoot liveOut x = true) :
      Demanded cfg block liveOut i
  | mark {i c : ℕ} {x : Insn} (h : Demanded cfg block liveOut i) (hx : block[i]? = some x)
      (hlt : c < i) (hc : c ∈ (emit cfg block i x).marks) : Demanded cfg block liveOut c

/-- The roots that `buildBasicBlockDAG` has found. -/
def roots (block : List Insn) (liveOut : List Reg) (i : ℕ) : Bool :=
  ((block[i]?).map (isRoot liveOut)).getD false

theorem roots_eq_true {i : ℕ} :
    roots block liveOut i = true ↔ ∃ x, block[i]? = some x ∧ isRoot liveOut x = true := by
  rw [roots]
  rcases block[i]? with _ | x <;> simp

theorem matchBasicBlock_eq : matchBasicBlock cfg block liveOut =
    selected cfg block block.length (roots block liveOut) := by
  rw [matchBasicBlock, matchLoop_eq, List.append_nil]
  rfl

theorem demanded_of_mem_selected {n : ℕ} {isRoot : ℕ → Bool} {p : Selected}
    (hroot : ∀ k, isRoot k = true → k < n → Demanded cfg block liveOut k)
    (hp : p ∈ selected cfg block n isRoot) : Demanded cfg block liveOut p.index := by
  induction n generalizing isRoot with
  | zero => cases hp
  | succ n ih =>
    cases hn : isRoot n with
    | false =>
      rw [selected_succ_of_not hn] at hp
      exact ih (fun k hk hlt => hroot k hk (Nat.lt_succ_of_lt hlt)) hp
    | true =>
      have hdemanded := hroot n hn (Nat.lt_succ_self n)
      rcases hx : block[n]? with _ | x
      · rw [selected, hx] at hp
        exact ih (fun k hk hlt => hroot k hk (Nat.lt_succ_of_lt hlt)) hp
      · rw [selected_succ_of_root hx hn, List.mem_append] at hp
        rcases hp with hp | hp
        · refine ih (fun k hk hlt => ?_) hp
          rw [marked, Bool.or_eq_true, decide_eq_true_eq] at hk
          rcases hk with hk | hk
          · exact hroot k hk (Nat.lt_succ_of_lt hlt)
          · exact hdemanded.mark hx hlt hk
        · obtain rfl := List.mem_singleton.mp hp
          exact hdemanded

theorem emitted_iff_demanded {i : ℕ} :
    i ∈ emitted (matchBasicBlock cfg block liveOut) ↔ Demanded cfg block liveOut i := by
  rw [matchBasicBlock_eq]
  constructor
  · intro hi
    obtain ⟨p, hp, rfl⟩ := List.mem_map.mp hi
    refine demanded_of_mem_selected (fun k hk _ => ?_) hp
    obtain ⟨x, hx, hroot⟩ := roots_eq_true.mp hk
    exact .root hx hroot
  · intro h
    induction h with
    | root hx h =>
      have hlen := (List.getElem?_eq_some_iff.mp hx).1
      exact List.mem_map.mpr ⟨_, mem_selected hlen hx (roots_eq_true.mpr ⟨_, hx, h⟩), rfl⟩
    | mark _ hx hlt hc ih => exact selected_closed ih hx hlt hc

/-- The code in front of an emitted instruction, with the roots that its pattern left. -/
theorem selected_split {n : ℕ} {isRoot : ℕ → Bool} {pre post : List Selected} {p : Selected}
    (h : selected cfg block n isRoot = pre ++ p :: post) :
    ∃ isRoot', (∀ k, isRoot k = true → isRoot' k = true) ∧
      pre = selected cfg block p.index (marked cfg block isRoot' p.index p.insn) := by
  induction n generalizing isRoot post with
  | zero =>
    have := congrArg List.length h
    simp [selected] at this
  | succ n ih =>
    cases hn : isRoot n with
    | false =>
      rw [selected_succ_of_not hn] at h
      exact ih h
    | true =>
      rcases hx : block[n]? with _ | x
      · rw [selected, hx] at h
        exact ih h
      · rw [selected_succ_of_root hx hn] at h
        rcases List.eq_nil_or_concat post with rfl | ⟨post', q, rfl⟩
        · obtain ⟨hpre, hp⟩ := List.append_inj' h rfl
          obtain rfl : _ = p := List.singleton_inj.mp hp
          exact ⟨isRoot, fun _ hk => hk, hpre.symm⟩
        · rw [List.concat_eq_append, ← List.cons_append, ← List.append_assoc] at h
          obtain ⟨isRoot', hmono, hpre⟩ := ih (List.append_inj' h rfl).1
          exact ⟨isRoot', fun k hk => hmono k (by simp [marked, hk]), hpre⟩

/-- What needs to be generated for an emitted instruction is in the code in front of it. -/
theorem needed_mem {i : ℕ} {isRoot : ℕ → Bool} {x : Insn} (hx : block[i]? = some x) {owner c : ℕ}
    (howner : owner ≤ i) (hlt : c < owner)
    (hc : Needed cfg block (emit cfg block i x).marks owner c) :
    c ∈ emitted (selected cfg block i (marked cfg block isRoot i x)) := by
  have hlen : i < block.length := (List.getElem?_eq_some_iff.mp hx).1
  have hmark : ∀ k < i, k ∈ (emit cfg block i x).marks →
      k ∈ emitted (selected cfg block i (marked cfg block isRoot i x)) := by
    intro k hki hk
    have hy := List.getElem?_eq_getElem (Nat.lt_trans hki hlen)
    exact List.mem_map.mpr ⟨_, mem_selected hki hy (by simp [marked, hk]), rfl⟩
  rcases hc with hc | ⟨k, hk, hkowner, y, hy, hck, hc⟩
  · exact hmark c (Nat.lt_of_lt_of_le hlt howner) hc
  · exact selected_closed (hmark k (Nat.lt_of_lt_of_le hkowner howner) hk) hy hck hc

/-! ### Sources that are kept -/

/-- No generated instruction from `j` up to `i` writes the register. -/
def Kept (block : List Insn) (generated : ℕ → Prop) (i j : ℕ) (r : Reg) : Prop :=
  ∀ k x, j ≤ k → k < i → generated k → block[k]? = some x → r ∉ x.dsts

/-- The sources of child `j` are not written before they are read for `i`. -/
def SourcesKept (block : List Insn) (generated : ℕ → Prop) (i j : ℕ) : Prop :=
  ∀ x, block[j]? = some x → ∀ r ∈ x.srcs, Kept block generated i j r

/-- The children that the patterns merge without a look at their sources have kept them:
the product of a multiply-add, the root of a reciprocal square root, and the conversions
that a narrowed 64-bit operation reads through; that operation is the definition of the
source. -/
def Stable (cfg : Config) (block : List Insn) (generated : ℕ → Prop) (i : ℕ) : Insn → Prop
  | .binary op type _ src0 src1 =>
    ((op = .ADD ∨ op = .SUB) → cfg.relaxMath = true → cfg.limitRegisterPressure = false →
      type = .float → ∀ p, (mul? block (regDAG block i src0)).or
        (mul? block (regDAG block i src1)) = some p → SourcesKept block generated i p.1) ∧
    (op = .DIV → type = .float → ∀ j t dst src, regDAG block i src1 = some j →
      block[j]? = some (.sqr t dst src) → SourcesKept block generated i j)
  | .cvt dstType srcType _ src =>
    dstType = .float ∧ (srcType = .s64 ∨ srcType = .u64) → ∀ d y a b l r,
      narrowed? block src = some (d, y, a, b) →
      lowerI64Reg block (regDAG block d a) = some l →
      lowerI64Reg block (regDAG block d b) = some r →
        regDAG block i src = some d ∧ ∀ j ∈ children block d, SourcesKept block generated i j
  | _ => True

/-- What is read for an operand has been kept, and a merged child is the definition of the
source it stands for. -/
def Operand.Kept (block : List Insn) (generated : ℕ → Prop) (i : ℕ) (r : Reg) (op : Operand) :
    Prop :=
  (∀ j x args, op = .merged j x args → regDAG block i r = some j) ∧
    ∀ q ∈ op.reads i, Munch.Kept block generated i q.1 q.2

/-- A register or a constant. -/
def Leaf.Plain : Leaf → Prop
  | .reg _ => True
  | .node _ x => x.srcs = []

def Operand.Plain (op : Operand) : Prop := ∃ l, op = .leaf l ∧ l.Plain

def Emission.Plain (e : Emission) : Prop := ∀ op ∈ e.operands, op.Plain

theorem loadi?_plain {c : Option ℕ} {p : ℕ × Insn × Immediate} (h : loadi? block c = some p) :
    (Leaf.node p.1 p.2.1).Plain := by
  obtain ⟨-, -, dst, hload⟩ := loadi?_eq_some h
  rw [Leaf.Plain, hload]
  rfl

theorem immediate?_plain {c : Option ℕ} {l : Leaf} (h : immediate? block c = some l) :
    l.Plain := by
  obtain ⟨p, hp, h⟩ := Option.bind_eq_some_iff.mp h
  split at h
  · rw [Option.some_inj] at h
    subst h
    exact loadi?_plain hp
  · cases h

theorem imm16?_plain {c : Option ℕ} {l : Leaf} (h : imm16? block c = some l) : l.Plain := by
  obtain ⟨p, hp, h⟩ := Option.bind_eq_some_iff.mp h
  split at h
  · rw [Option.some_inj] at h
    subst h
    exact loadi?_plain hp
  · cases h

theorem getSrcGenRegImm_plain (cfg : Config) (block : List Insn) (i : ℕ) (dag0 dag1 : Option ℕ)
    (src0 src1 : Reg) (swap : Bool) :
    (getSrcGenRegImm cfg block i dag0 dag1 src0 src1 swap).1.Plain ∧
      (getSrcGenRegImm cfg block i dag0 dag1 src0 src1 swap).2.1.Plain := by
  rw [getSrcGenRegImm]
  split
  · rename_i imm himm
    split at himm
    · exact ⟨trivial, immediate?_plain himm⟩
    · cases himm
  split
  · rename_i imm himm
    split at himm
    · exact ⟨immediate?_plain himm, trivial⟩
    · cases himm
  · exact ⟨trivial, trivial⟩

theorem Emission.Plain.two {l0 l1 : Leaf} {marks : List ℕ} (h0 : l0.Plain) (h1 : l1.Plain) :
    Emission.Plain ⟨[.leaf l0, .leaf l1], marks⟩ := by
  intro op hop
  simp only [List.mem_cons, List.not_mem_nil, or_false] at hop
  rcases hop with rfl | rfl
  · exact ⟨l0, rfl, h0⟩
  · exact ⟨l1, rfl, h1⟩

theorem emitAll_plain (block : List Insn) (i : ℕ) (x : Insn) : (emitAll block i x).Plain := by
  intro op hop
  obtain ⟨r, -, rfl⟩ := List.mem_map.mp hop
  exact ⟨.reg r, rfl, trivial⟩

theorem emitDivRem_plain (block : List Insn) (i : ℕ) (x : Insn) (op : BinaryOp) (type : Ty)
    (src0 src1 : Reg) : (emitDivRem block i x op type src0 src1).Plain := by
  rw [emitDivRem]
  split
  · rename_i k y imm hload
    split
    · exact .two (loadi?_plain hload) trivial
    · exact emitAll_plain block i x
  · exact emitAll_plain block i x

theorem emitMul32_plain (block : List Insn) (i : ℕ) (x : Insn) (src0 src1 : Reg) :
    (emitMul32 block i x src0 src1).Plain := by
  rw [emitMul32]
  split
  · exact emitAll_plain block i x
  split
  · rename_i imm himm
    exact .two (imm16?_plain himm) trivial
  split
  · rename_i imm himm
    exact .two trivial (imm16?_plain himm)
  · exact emitAll_plain block i x

theorem emitBinary_plain (cfg : Config) (block : List Insn) (i : ℕ) (x : Insn) (op : BinaryOp)
    (type : Ty) (src0 src1 : Reg) : (emitBinary cfg block i x op type src0 src1).Plain := by
  rw [emitBinary]
  split
  · exact emitDivRem_plain block i x op type src0 src1
  split
  · exact emitAll_plain block i x
  simp only
  split
  · exact emitMul32_plain block i x src0 src1
  · obtain ⟨h0, h1⟩ := getSrcGenRegImm_plain cfg block i (regDAG block i src0)
      (regDAG block i src1) src0 src1 (op.commutes || decide (op = .SUB))
    exact .two h0 h1

theorem emitSelect_plain (cfg : Config) (block : List Insn) (i : ℕ) (pred src0 src1 : Reg) :
    (emitSelect cfg block i pred src0 src1).Plain := by
  obtain ⟨h0, h1⟩ := getSrcGenRegImm_plain cfg block i (regDAG block i src0)
    (regDAG block i src1) src0 src1 true
  intro op hop
  rw [emitSelect] at hop
  simp only [List.mem_cons, List.not_mem_nil, or_false] at hop
  rcases hop with rfl | rfl | rfl
  · exact ⟨_, rfl, trivial⟩
  · exact ⟨_, rfl, h0⟩
  · exact ⟨_, rfl, h1⟩

theorem emitShuffle_plain (block : List Insn) (i : ℕ) (x : Insn) (src0 src1 : Reg) :
    (emitShuffle block i x src0 src1).Plain := by
  rw [emitShuffle]
  split
  · rename_i imm himm
    exact .two trivial (immediate?_plain himm)
  · exact emitAll_plain block i x

section Stability

variable {generated : ℕ → Prop} {i : ℕ}

/-- A register of the instruction itself is read in its place. -/
theorem kept_self (r : Reg) : Kept block generated i i r :=
  fun _ _ hle hlt _ _ => absurd hle (Nat.not_le_of_lt hlt)

theorem Operand.Plain.kept {op : Operand} (h : op.Plain) (r : Reg) :
    op.Kept block generated i r := by
  obtain ⟨l, rfl, hl⟩ := h
  refine ⟨fun j x args hop => Operand.noConfusion hop, fun q hq => ?_⟩
  cases l with
  | reg r' =>
    obtain rfl := List.mem_singleton.mp hq
    exact kept_self r'
  | node j x =>
    rw [Operand.reads, Leaf.reads, show x.srcs = [] from hl] at hq
    cases hq

/-- A merged child keeps its promise exactly when its sources are kept. -/
theorem kept_node_iff {j : ℕ} {y : Insn} (hy : block[j]? = some y) (r : Reg) :
    (Operand.leaf (.node j y)).Kept block generated i r ↔ SourcesKept block generated i j := by
  constructor
  · intro h x hx r' hr'
    rw [hy, Option.some_inj] at hx
    subst hx
    exact h.2 (j, r') (List.mem_map.mpr ⟨r', hr', rfl⟩)
  · intro h
    refine ⟨fun _ _ _ hop => Operand.noConfusion hop, fun q hq => ?_⟩
    obtain ⟨r', hr', rfl⟩ := List.mem_map.mp hq
    exact h y hy r' hr'

/-- Registers and constants are always kept. -/
theorem Emission.Plain.kept {e : Emission} {rs : List Reg} (h : e.Plain)
    (hlen : rs.length = e.operands.length) :
    List.Forall₂ (Operand.Kept block generated i) rs e.operands := by
  rw [List.forall₂_iff_zip]
  exact ⟨hlen, fun {r op} hmem => (h op (List.of_mem_zip hmem).2).kept r⟩

theorem emit_length (cfg : Config) {x : Insn} (hx : block[i]? = some x) :
    x.srcs.length = (emit cfg block i x).operands.length :=
  (emit_spec cfg hx).length_eq

/-- One operand is a merged child, the other a register or a constant. -/
theorem forall₂_kept_iff {r0 r1 : Reg} {op0 op1 : Operand} {P : Prop}
    (h : (op0.Kept block generated i r0 ↔ P) ∧ op1.Plain ∨
      op0.Plain ∧ (op1.Kept block generated i r1 ↔ P)) :
    List.Forall₂ (Operand.Kept block generated i) [r0, r1] [op0, op1] ↔ P := by
  rw [List.forall₂_cons, List.forall₂_cons]
  rcases h with ⟨h, hplain⟩ | ⟨hplain, h⟩
  · exact ⟨fun hk => h.mp hk.1, fun hp => ⟨h.mpr hp, hplain.kept r1, .nil⟩⟩
  · exact ⟨fun hk => h.mp hk.2.1, fun hp => ⟨hplain.kept r0, h.mpr hp, .nil⟩⟩

/-- The multiply-add. -/
theorem emitMulAdd_kept_iff {type : Ty} {src0 src1 : Reg} {e : Emission}
    (h : emitMulAdd cfg block i type src0 src1 = some e) :
    List.Forall₂ (Operand.Kept block generated i) [src0, src1] e.operands ↔
      ∀ p, (mul? block (regDAG block i src0)).or (mul? block (regDAG block i src1)) = some p →
        SourcesKept block generated i p.1 := by
  rw [emitMulAdd] at h
  split at h
  · cases h
  split at h
  · rename_i j y hmul
    obtain ⟨-, hy, -⟩ := mul?_eq_some hmul
    rw [Option.some_inj] at h
    subst h
    rw [hmul, Option.some_or]
    simp only [Option.some.injEq, forall_eq']
    exact forall₂_kept_iff (Or.inl ⟨kept_node_iff hy src0, _, rfl, trivial⟩)
  · rename_i hnone
    split at h
    · rename_i j y hmul
      obtain ⟨-, hy, -⟩ := mul?_eq_some hmul
      rw [Option.some_inj] at h
      subst h
      rw [hnone, Option.none_or, hmul]
      simp only [Option.some.injEq, forall_eq']
      exact forall₂_kept_iff (Or.inr ⟨⟨_, rfl, trivial⟩, kept_node_iff hy src1⟩)
    · cases h

theorem of_emitMulAdd_eq_some {type : Ty} {src0 src1 : Reg} {e : Emission}
    (h : emitMulAdd cfg block i type src0 src1 = some e) :
    cfg.relaxMath = true ∧ cfg.limitRegisterPressure = false ∧ type = .float := by
  rw [emitMulAdd] at h
  split at h
  · cases h
  · rename_i hguard
    simpa only [not_or, Bool.not_eq_false, Bool.not_eq_true, ne_eq, not_not] using hguard

theorem emitMulAdd_eq_none {type : Ty} {src0 src1 : Reg}
    (h : emitMulAdd cfg block i type src0 src1 = none) (hrelax : cfg.relaxMath = true)
    (hlimit : cfg.limitRegisterPressure = false) (htype : type = .float) :
    (mul? block (regDAG block i src0)).or (mul? block (regDAG block i src1)) = none := by
  rw [emitMulAdd, if_neg (by simp [hrelax, hlimit, htype])] at h
  split at h
  · cases h
  · rename_i hnone
    split at h
    · cases h
    · rename_i hnone'
      rw [hnone, hnone', Option.none_or]

/-- The reciprocal square root. -/
theorem emitSqrtDiv_kept_iff {type : Ty} {src0 src1 : Reg} {e : Emission}
    (h : emitSqrtDiv block i type src0 src1 = some e) :
    List.Forall₂ (Operand.Kept block generated i) [src0, src1] e.operands ↔
      ∀ j t dst src, regDAG block i src1 = some j → block[j]? = some (.sqr t dst src) →
        SourcesKept block generated i j := by
  simp only [emitSqrtDiv] at h
  split at h
  · cases h
  rw [Option.bind_eq_some_iff] at h
  obtain ⟨j, hr, h⟩ := h
  split at h
  swap
  · cases h
  rename_i t dst src hy
  have hroot : (∀ j t dst src, regDAG block i src1 = some j → block[j]? = some (.sqr t dst src) →
      SourcesKept block generated i j) ↔ SourcesKept block generated i j := by
    constructor
    · exact fun hkept => hkept j t dst src hr hy
    · intro hkept j' _ _ _ hr' _
      rw [hr, Option.some_inj] at hr'
      exact hr' ▸ hkept
  rw [hroot]
  split at h
  · rename_i k y imm hload
    split at h <;> rw [Option.some_inj] at h <;> subst h
    · exact forall₂_kept_iff (Or.inr ⟨⟨_, rfl, trivial⟩, kept_node_iff hy src1⟩)
    · exact forall₂_kept_iff (Or.inr ⟨⟨_, rfl, loadi?_plain hload⟩, kept_node_iff hy src1⟩)
  · rw [Option.some_inj] at h
    subst h
    exact forall₂_kept_iff (Or.inr ⟨⟨_, rfl, trivial⟩, kept_node_iff hy src1⟩)

theorem emitSqrtDiv_isSome {type : Ty} (src0 : Reg) {src1 : Reg} {j : ℕ} {t : Ty} {dst src : Reg}
    (htype : type = .float) (hj : regDAG block i src1 = some j)
    (hy : block[j]? = some (.sqr t dst src)) : (emitSqrtDiv block i type src0 src1).isSome := by
  simp only [emitSqrtDiv, htype, ne_eq, not_true_eq_false, if_false, hj, Option.bind_some, hy]
  split
  · split <;> rfl
  · rfl

/-- The definitions of a register in two places are the same, so nothing between them
writes it. -/
theorem kept_of_regDAG_eq {j : ℕ} {r : Reg} (h : regDAG block j r = regDAG block i r) :
    Kept block generated i j r := by
  intro k x hjk hki _ hx hr
  obtain ⟨c, hc, hkc⟩ := regDAG_last hki hx hr
  have := regDAG_lt (h.trans hc)
  omega

/-- The selection by a comparison has compared the definitions. -/
theorem emitSelectModifier_kept {type : Ty} {pred src0 src1 : Reg} {e : Emission}
    (h : emitSelectModifier cfg block i type pred src0 src1 = some e) :
    List.Forall₂ (Operand.Kept block generated i) [pred, src0, src1] e.operands := by
  rw [emitSelectModifier] at h
  split at h
  · cases h
  rw [Option.bind_eq_some_iff] at h
  obtain ⟨j, hj, h⟩ := h
  split at h
  swap
  · cases h
  rename_i ord code t dst a b hy
  split at h
  swap
  · cases h
  rename_i hmatch
  obtain ⟨rfl, hsame0, rfl, hsame1, -⟩ := hmatch
  obtain ⟨hl, hr⟩ := getSrcGenRegImm_plain cfg block j (regDAG block j a) (regDAG block j b) a b
    (t ≠ .float && t ≠ .double)
  obtain ⟨hok0, hok1⟩ := getSrcGenRegImm_ok cfg hy (t ≠ .float && t ≠ .double) List.mem_cons_self
    (List.mem_cons_of_mem _ List.mem_cons_self)
  simp only [Option.some_inj] at h
  subst h
  refine .cons ⟨fun j' _ _ hop => ?_, fun q hq => ?_⟩
    (.cons (Operand.Plain.kept ⟨_, rfl, hl⟩ a) (.cons (Operand.Plain.kept ⟨_, rfl, hr⟩ b) .nil))
  · cases hop
    exact hj
  · obtain ⟨l, hmem, hq⟩ := List.mem_flatMap.mp hq
    -- a leaf reads its own register for the comparison, or nothing
    have hleaf : ∀ (l : Leaf) (r : Reg) (marks : List ℕ), l.Plain → l.Ok cfg block marks j r →
        regDAG block j r = regDAG block i r → q ∈ l.reads j → Kept block generated i q.1 q.2 := by
      intro l r marks hplain hok hsame hq
      cases l with
      | reg r' =>
        obtain rfl := List.mem_singleton.mp hq
        obtain rfl := hok.1
        exact kept_of_regDAG_eq hsame
      | node k x =>
        rw [Leaf.reads, show x.srcs = [] from hplain] at hq
        cases hq
    simp only [List.mem_cons, List.not_mem_nil, or_false] at hmem
    rcases hmem with rfl | rfl
    · exact hleaf _ _ _ hl hok0 hsame0 hq
    · exact hleaf _ _ _ hr hok1 hsame1 hq

/-- A lowered operand is the node that defines it. -/
theorem lowerI64Reg_eq_some {c : Option ℕ} {p : Leaf × List ℕ} (h : lowerI64Reg block c = some p) :
    ∃ j x, c = some j ∧ block[j]? = some x ∧ p.1 = .node j x := by
  rw [lowerI64Reg, Option.bind_eq_some_iff] at h
  obtain ⟨j, rfl, h⟩ := h
  split at h
  · rename_i imm dst hx
    split at h
    · rw [Option.some_inj] at h
      subst h
      exact ⟨j, _, rfl, hx, rfl⟩
    · cases h
  · rename_i dstType srcType dst src hx
    split at h
    · rw [Option.some_inj] at h
      subst h
      exact ⟨j, _, rfl, hx, rfl⟩
    · cases h
  · cases h

/-- The narrowed conversion. -/
theorem emitConvert_kept_iff {dstType srcType : Ty} {dst src : Reg} :
    List.Forall₂ (Operand.Kept block generated i) [src] (emitConvert block i
      (.cvt dstType srcType dst src) dstType srcType src).operands ↔
        Stable cfg block generated i (.cvt dstType srcType dst src) := by
  have hall : List.Forall₂ (Operand.Kept block generated i) [src]
      (emitAll block i (.cvt dstType srcType dst src)).operands :=
    (emitAll_plain block i _).kept rfl
  rw [emitConvert, Stable]
  split
  swap
  · rename_i hwide
    exact ⟨fun _ h => absurd h hwide, fun _ => hall⟩
  rename_i hwide
  split
  swap
  · rename_i hnone
    refine ⟨fun _ _ d y a b l r hnarrow => ?_, fun _ => hall⟩
    rw [hnone] at hnarrow
    cases hnarrow
  rename_i d y a b hnarrow
  simp only
  split
  swap
  · rename_i hfail
    refine ⟨fun _ _ d' y' a' b' l r hnarrow' hl hr => ?_, fun _ => hall⟩
    rw [hnarrow] at hnarrow'
    simp only [Option.some.injEq, Prod.mk.injEq] at hnarrow'
    obtain ⟨rfl, rfl, rfl, rfl⟩ := hnarrow'
    exact absurd hr (hfail l.1 l.2 r.1 r.2 hl)
  rename_i l m r m' hl hr
  obtain ⟨hy, -, hsrcs⟩ := narrowed?_eq_some hnarrow
  obtain ⟨j0, x0, hj0, hx0, hl0⟩ := lowerI64Reg_eq_some hl
  obtain ⟨j1, x1, hj1, hx1, hr1⟩ := lowerI64Reg_eq_some hr
  obtain rfl : l = .node j0 x0 := hl0
  obtain rfl : r = .node j1 x1 := hr1
  have hchildren : children block d = [j0, j1] := by
    rw [children, hy, Option.map_some, Option.getD_some, hsrcs]
    simp [hj0, hj1]
  have hreads : (∀ q ∈ Operand.reads i (.merged d y [.node j0 x0, .node j1 x1]),
      Kept block generated i q.1 q.2) ↔
        ∀ j ∈ children block d, SourcesKept block generated i j := by
    rw [hchildren, List.forall_mem_cons, List.forall_mem_singleton,
      ← (kept_node_iff hx0 0), ← (kept_node_iff hx1 0)]
    simp only [Operand.reads, List.flatMap_cons, List.flatMap_nil, List.append_nil,
      List.forall_mem_append, Operand.Kept, reduceCtorEq, false_imp_iff, implies_true, true_and,
      Leaf.reads]
  rw [List.forall₂_cons, Operand.Kept, hreads]
  constructor
  · rintro ⟨⟨hchild, hkept⟩, -⟩ - d' y' a' b' l' r' hnarrow' - -
    rw [hnarrow] at hnarrow'
    simp only [Option.some.injEq, Prod.mk.injEq] at hnarrow'
    obtain ⟨rfl, -⟩ := hnarrow'
    exact ⟨hchild d y _ rfl, hkept⟩
  · intro h
    obtain ⟨hchild, hkept⟩ := h hwide d y a b _ _ hnarrow hl hr
    refine ⟨⟨fun j x args hop => ?_, hkept⟩, .nil⟩
    cases hop
    exact hchild

/-- The sources that the patterns of an instruction read late are kept. -/
theorem stable_iff {x : Insn} (hx : block[i]? = some x) : Stable cfg block generated i x ↔
    List.Forall₂ (Operand.Kept block generated i) x.srcs (emit cfg block i x).operands := by
  have hlen := emit_length cfg hx
  cases x with
  | binary op type dst src0 src1 =>
    have hbinary : List.Forall₂ (Operand.Kept block generated i) [src0, src1]
        (emitBinary cfg block i (.binary op type dst src0 src1) op type src0 src1).operands :=
      (emitBinary_plain cfg block i _ op type src0 src1).kept
        (emitBinary_ok hx rfl : Emission.Ok cfg block i _ _).length_eq
    rw [emit]
    split
    · rename_i hadd
      have hdiv : op ≠ .DIV := by
        rintro rfl
        simp at hadd
      cases h : emitMulAdd cfg block i type src0 src1 with
      | none =>
        refine ⟨fun _ => hbinary, fun _ => ⟨fun _ hrelax hlimit htype p hp => ?_,
          fun h => absurd h hdiv⟩⟩
        rw [emitMulAdd_eq_none h hrelax hlimit htype] at hp
        cases hp
      | some e =>
        obtain ⟨hrelax, hlimit, htype⟩ := of_emitMulAdd_eq_some h
        rw [Option.getD_some]
        refine Iff.trans ?_ (emitMulAdd_kept_iff h).symm
        exact ⟨fun hs => hs.1 hadd hrelax hlimit htype,
          fun hp => ⟨fun _ _ _ _ => hp, fun h => absurd h hdiv⟩⟩
    rename_i hadd
    split
    · rename_i hdiv
      cases h : emitSqrtDiv block i type src0 src1 with
      | none =>
        refine ⟨fun _ => hbinary, fun _ => ⟨fun h => absurd h hadd,
          fun _ htype j t dst src hj hy => ?_⟩⟩
        have hsome := emitSqrtDiv_isSome src0 htype hj hy
        rw [h] at hsome
        cases hsome
      | some e =>
        have htype : type = .float := by
          by_contra htype
          rw [emitSqrtDiv, if_pos htype] at h
          cases h
        rw [Option.getD_some]
        refine Iff.trans ?_ (emitSqrtDiv_kept_iff h).symm
        exact ⟨fun hs => hs.2 hdiv htype, fun hp => ⟨fun h => absurd h hadd, fun _ _ => hp⟩⟩
    · rename_i hdiv
      exact ⟨fun _ => hbinary, fun _ => ⟨fun h => absurd h hadd, fun h => absurd h hdiv⟩⟩
  | compare ord code type dst src0 src1 =>
    obtain ⟨h0, h1⟩ := getSrcGenRegImm_plain cfg block i (regDAG block i src0)
      (regDAG block i src1) src0 src1 (type ≠ .float && type ≠ .double)
    have hplain : (emit cfg block i (.compare ord code type dst src0 src1)).Plain := .two h0 h1
    exact ⟨fun _ => hplain.kept hlen, fun _ => trivial⟩
  | select type dst pred src0 src1 =>
    refine ⟨fun _ => ?_, fun _ => trivial⟩
    cases h : emitSelectModifier cfg block i type pred src0 src1 with
    | none =>
      have hplain := emitSelect_plain cfg block i pred src0 src1
      rw [emit, h, Option.getD_none] at hlen ⊢
      exact hplain.kept hlen
    | some e =>
      rw [emit, h, Option.getD_some]
      exact emitSelectModifier_kept h
  | cvt dstType srcType dst src => exact emitConvert_kept_iff.symm
  | shuffle code dst src0 src1 =>
    exact ⟨fun _ => (emitShuffle_plain block i _ src0 src1).kept hlen, fun _ => trivial⟩
  | sqr type dst src => exact ⟨fun _ => (emitAll_plain block i _).kept hlen, fun _ => trivial⟩
  | loadi imm dst => exact ⟨fun _ => (emitAll_plain block i _).kept hlen, fun _ => trivial⟩
  | other code mustEmit dst src =>
    exact ⟨fun _ => (emitAll_plain block i _).kept hlen, fun _ => trivial⟩

end Stability

/-! ### The definitions that are read -/

section Definitions

variable {generated : ℕ → Prop} {code : List Selected} {i : ℕ} {marks : List ℕ}

/-- The code in front of place `i` is ordered, and consists of generated instructions of
the block. -/
structure Before (block : List Insn) (generated : ℕ → Prop) (code : List Selected) (i : ℕ) :
    Prop where
  ordered : code.Pairwise fun p q => p.index < q.index
  insn : ∀ p ∈ code, p.index < i ∧ block[p.index]? = some p.insn ∧ generated p.index

/-- A register that is kept since its definition was last seen still holds it. -/
theorem Before.lastWrite_eq (h : Before block generated code i) {owner : ℕ} {r : Reg}
    (hneeded : ∀ c, regDAG block owner r = some c → c ∈ emitted code)
    (hkept : Kept block generated i owner r) : lastWrite code r = regDAG block owner r := by
  have hwrite : ∀ p ∈ code, r ∈ p.insn.dsts →
      ∃ c, regDAG block owner r = some c ∧ p.index ≤ c := by
    intro p hp hr
    obtain ⟨hlt, hx, hgen⟩ := h.insn p hp
    refine regDAG_last (Nat.lt_of_not_le fun hle => ?_) hx hr
    exact hkept _ _ hle hlt hgen hx hr
  rcases hd : regDAG block owner r with _ | c
  · rcases hw : lastWrite code r with _ | w
    · rfl
    · obtain ⟨p, hp, -, hr⟩ := exists_of_lastWrite hw
      obtain ⟨c, hc, -⟩ := hwrite p hp hr
      rw [hd] at hc
      cases hc
  · obtain ⟨p, hp, rfl⟩ := List.mem_map.mp (hneeded c hd)
    obtain ⟨x, hx, hr⟩ := regDAG_writes hd
    rw [(h.insn p hp).2.1, Option.some_inj] at hx
    subst hx
    obtain ⟨w, hw, hle⟩ := le_lastWrite h.ordered hp hr
    -- the last write is a write, so it is not behind the definition
    obtain ⟨q, hq, rfl, hrq⟩ := exists_of_lastWrite hw
    obtain ⟨c, hc, hqc⟩ := hwrite q hq hrq
    rw [hd, Option.some_inj] at hc
    rw [hw, Option.some_inj]
    omega

theorem Before.leaf_current (h : Before block generated code i) {owner : ℕ}
    (hneeded : ∀ c < owner, Needed cfg block marks owner c → c ∈ emitted code) {r : Reg} {l : Leaf}
    (hl : l.Ok cfg block marks owner r)
    (hkept : ∀ q ∈ l.reads owner, Kept block generated i q.1 q.2) :
    ∀ q ∈ l.reads owner, lastWrite code q.2 = regDAG block q.1 q.2 := by
  intro q hq
  refine h.lastWrite_eq (fun c hc => ?_) (hkept q hq)
  cases l with
  | reg r' =>
    obtain rfl := List.mem_singleton.mp hq
    obtain ⟨rfl, hl⟩ := hl
    exact hneeded c (regDAG_lt hc) (hl c hc)
  | node j x =>
    obtain ⟨hr, hx, -, hl⟩ := hl
    obtain ⟨r', hr', rfl⟩ := List.mem_map.mp hq
    have hlt : c < owner := Nat.lt_trans (regDAG_lt hc) (regDAG_lt hr)
    exact hneeded c hlt (hl c (mem_children hx hr' hc))

theorem Before.operand_current (h : Before block generated code i)
    (hneeded : ∀ owner ≤ i, ∀ c < owner, Needed cfg block marks owner c → c ∈ emitted code)
    {r : Reg} {op : Operand} (hop : op.Ok cfg block marks i r)
    (hkept : op.Kept block generated i r) : op.Current block code i r := by
  refine ⟨hkept.1, ?_⟩
  cases op with
  | leaf l => exact h.leaf_current (hneeded i (Nat.le_refl i)) hop hkept.2
  | merged j x args =>
    intro q hq
    obtain ⟨l, hl, hq⟩ := List.mem_flatMap.mp hq
    have hj : j ≤ i := Nat.le_of_lt (regDAG_lt (hkept.1 j x args rfl))
    obtain ⟨hlen, hget⟩ := List.forall₂_iff_get.mp hop.2.2
    obtain ⟨k, hk, rfl⟩ := List.getElem_of_mem hl
    exact h.leaf_current (hneeded j hj) (hget k (hlen ▸ hk) hk)
      (fun q hq => hkept.2 q (List.mem_flatMap.mpr ⟨_, hl, hq⟩)) q hq

/-- A register that holds the definition seen from `j` has not been written since. -/
theorem Operand.Current.kept (hcode : code.Pairwise fun p q => p.index < q.index)
    (hgen : ∀ k x, k < i → generated k → block[k]? = some x →
      ∃ p ∈ code, p.index = k ∧ p.insn = x)
    {r : Reg} {op : Operand} (h : op.Current block code i r) : op.Kept block generated i r := by
  refine ⟨h.1, fun q hq k x hle hlt hk hx hr => ?_⟩
  obtain ⟨p, hp, rfl, rfl⟩ := hgen k x hlt hk hx
  obtain ⟨c, hc, hpc⟩ := le_lastWrite hcode hp hr
  rw [h.2 q hq] at hc
  have := regDAG_lt hc
  omega

end Definitions

/-- The code in front of an emitted instruction. -/
theorem before_of_split {pre post : List Selected} {p : Selected}
    (h : matchBasicBlock cfg block liveOut = pre ++ p :: post) :
    Before block (Demanded cfg block liveOut) pre p.index := by
  have hmem : ∀ q ∈ pre, q ∈ matchBasicBlock cfg block liveOut :=
    fun q hq => h ▸ List.mem_append_left _ hq
  have hpair : (pre ++ p :: post).Pairwise fun p q => p.index < q.index := by
    rw [← h, matchBasicBlock_eq]
    exact selected_pairwise
  rw [List.pairwise_append] at hpair
  refine ⟨hpair.1, fun q hq => ⟨hpair.2.2 q hq p List.mem_cons_self, ?_, ?_⟩⟩
  · have hq' := hmem q hq
    rw [matchBasicBlock_eq] at hq'
    exact (of_mem_selected hq').2.1
  · exact emitted_iff_demanded.mp (List.mem_map_of_mem (hmem q hq))

/-- The code reads the definitions that the IR gives its operands exactly when the
children that are merged have kept their sources. -/
theorem allCurrent_iff : AllCurrent block (matchBasicBlock cfg block liveOut) ↔
    ∀ i x, Demanded cfg block liveOut i → block[i]? = some x →
      Stable cfg block (Demanded cfg block liveOut) i x := by
  constructor
  · intro hcurrent i x hi hx
    obtain ⟨p, hp, rfl⟩ := List.mem_map.mp (emitted_iff_demanded.mpr hi)
    obtain ⟨pre, post, hsplit⟩ := List.append_of_mem hp
    have hbefore := before_of_split hsplit
    rw [matchBasicBlock_eq] at hp
    obtain ⟨-, hinsn, hops⟩ := of_mem_selected hp
    rw [hx, Option.some_inj] at hinsn
    subst hinsn
    rw [stable_iff hx, ← hops]
    refine (hcurrent pre p post hsplit).imp fun r op hop =>
      hop.kept hbefore.ordered fun k x hlt hk hx' => ?_
    -- what is generated in front of `p` is not behind it
    obtain ⟨q, hq, rfl⟩ := List.mem_map.mp (emitted_iff_demanded.mpr hk)
    have hpair : (pre ++ p :: post).Pairwise fun p q => p.index < q.index := by
      rw [← hsplit, matchBasicBlock_eq]
      exact selected_pairwise
    have hinsn : block[q.index]? = some q.insn := by
      rw [matchBasicBlock_eq] at hq
      exact (of_mem_selected hq).2.1
    rw [hx', Option.some_inj] at hinsn
    rw [hsplit, List.mem_append, List.mem_cons] at hq
    rcases hq with hq | rfl | hq
    · exact ⟨q, hq, rfl, hinsn.symm⟩
    · omega
    · have := List.rel_of_pairwise_cons (List.pairwise_append.mp hpair).2.1 hq
      omega
  · intro hstable pre p post hsplit
    have hp : p ∈ matchBasicBlock cfg block liveOut := by
      rw [hsplit]
      exact List.mem_append_right _ List.mem_cons_self
    have hdemanded := emitted_iff_demanded.mp (List.mem_map_of_mem hp)
    rw [matchBasicBlock_eq] at hp
    obtain ⟨-, hx, hops⟩ := of_mem_selected hp
    have hkept := (stable_iff hx).mp (hstable _ _ hdemanded hx)
    have hbefore := before_of_split hsplit
    rw [matchBasicBlock_eq] at hsplit
    obtain ⟨isRoot', -, hpre⟩ := selected_split hsplit
    have hneeded : ∀ owner ≤ p.index, ∀ c < owner,
        Needed cfg block (emit cfg block p.index p.insn).marks owner c → c ∈ emitted pre := by
      intro owner howner c hc hn
      rw [hpre]
      exact needed_mem hx howner hc hn
    rw [hops]
    refine List.forall₂_iff_get.mpr ⟨hkept.length_eq, fun k hk hk' => ?_⟩
    exact hbefore.operand_current hneeded ((List.forall₂_iff_get.mp (emit_spec cfg hx)).2 k hk hk')
      ((List.forall₂_iff_get.mp hkept).2 k hk hk')

/-! ### The block is preserved -/

/-- What instruction selection is for. -/
structure Preserves (cfg : Config) (block : List Insn) (liveOut : List Reg) : Prop where
  /-- in the original order and exactly once -/
  ordered : (matchBasicBlock cfg block liveOut).Pairwise fun p q => p.index < q.index
  /-- every instruction that has an effect or defines a live-out register -/
  complete : ∀ i x, block[i]? = some x → isRoot liveOut x = true →
    ∃ p ∈ matchBasicBlock cfg block liveOut, p.index = i ∧ p.insn = x
  /-- definitions have been emitted and not been overwritten since -/
  current : AllCurrent block (matchBasicBlock cfg block liveOut)
  /-- a register that is read holds the value that the IR gives the operand -/
  read : ∀ {Val World : Type} (I : Interp Val World) (s : State Val World) pre p post,
    matchBasicBlock cfg block liveOut = pre ++ p :: post →
      ∀ op ∈ p.operands, ∀ q ∈ op.reads p.index,
        (runCode I pre s).env q.2 = (runBlock I (block.take q.1) s).env q.2
  /-- and so the operands have the values of the sources -/
  operands : ∀ {Val World : Type} (I : Interp Val World) (s : State Val World) pre p post,
    matchBasicBlock cfg block liveOut = pre ++ p :: post →
      p.operands.map (Operand.eval I (runCode I pre s)) =
        p.insn.srcs.map (runBlock I (block.take p.index) s).env
  world : ∀ {Val World : Type} (I : Interp Val World) (s : State Val World),
    (runCode I (matchBasicBlock cfg block liveOut) s).world = (runBlock I block s).world
  liveOut : ∀ {Val World : Type} (I : Interp Val World) (s : State Val World), ∀ r ∈ liveOut,
    (runCode I (matchBasicBlock cfg block liveOut) s).env r = (runBlock I block s).env r

theorem roots_of_hasEffect {k : ℕ} {x : Insn} (hx : block[k]? = some x)
    (h : x.hasEffect = true) : roots block liveOut k = true :=
  roots_eq_true.mpr ⟨x, hx, by simp [isRoot, h]⟩

section Meaning

variable {Val World : Type} (I : Interp Val World) (s : State Val World)

/-- The machine in front of an emitted instruction. -/
theorem AllCurrent.agrees {pre post : List Selected} {p : Selected}
    (h : AllCurrent block (matchBasicBlock cfg block liveOut))
    (hsplit : matchBasicBlock cfg block liveOut = pre ++ p :: post) :
    Agrees I block s pre p.index (runCode I pre s) := by
  rw [hsplit] at h
  rw [matchBasicBlock_eq] at hsplit
  obtain ⟨isRoot', hmono, hpre⟩ := selected_split hsplit
  rw [hpre] at h ⊢
  refine simulates I s (fun k x hx heffect => ?_) h.of_append
  simp [marked, hmono k (roots_of_hasEffect hx heffect)]

/-- The machine at the end of the block. -/
theorem AllCurrent.agrees_end (h : AllCurrent block (matchBasicBlock cfg block liveOut)) :
    Agrees I block s (matchBasicBlock cfg block liveOut) block.length
      (runCode I (matchBasicBlock cfg block liveOut) s) := by
  rw [matchBasicBlock_eq] at h ⊢
  exact simulates I s (fun k x hx heffect => roots_of_hasEffect hx heffect) h

/-- A live-out register holds its last definition. -/
theorem lastWrite_liveOut {r : Reg} (hr : r ∈ liveOut) :
    lastWrite (matchBasicBlock cfg block liveOut) r = regDAG block block.length r := by
  have hbefore : Before block (Demanded cfg block liveOut) (matchBasicBlock cfg block liveOut)
      block.length := by
    refine ⟨?_, fun p hp => ?_⟩
    · rw [matchBasicBlock_eq]
      exact selected_pairwise
    · have hdemanded := emitted_iff_demanded.mp (List.mem_map_of_mem hp)
      rw [matchBasicBlock_eq] at hp
      obtain ⟨hlt, hx, -⟩ := of_mem_selected hp
      exact ⟨hlt, hx, hdemanded⟩
  refine hbefore.lastWrite_eq (fun c hc => ?_) (kept_self r)
  obtain ⟨x, hx, hrx⟩ := regDAG_writes hc
  refine emitted_iff_demanded.mpr (.root hx ?_)
  rw [isRoot, Bool.or_eq_true, List.any_eq_true]
  exact Or.inr ⟨r, hrx, by simpa using hr⟩

end Meaning

/-- Selection preserves the block exactly when no generated instruction writes a source of
a merged child before the child is computed, and a narrowed operation is the definition of
the source that is converted. -/
theorem matchBasicBlock_preserves_iff : Preserves cfg block liveOut ↔
    ∀ i x, Demanded cfg block liveOut i → block[i]? = some x →
      Stable cfg block (Demanded cfg block liveOut) i x := by
  rw [← allCurrent_iff]
  refine ⟨fun h => h.current, fun h => ⟨?_, ?_, h, ?_, ?_, ?_, ?_⟩⟩
  · rw [matchBasicBlock_eq]
    exact selected_pairwise
  · intro i x hx hroot
    rw [matchBasicBlock_eq]
    have hlen := (List.getElem?_eq_some_iff.mp hx).1
    exact ⟨_, mem_selected hlen hx (roots_eq_true.mpr ⟨x, hx, hroot⟩), rfl, rfl⟩
  · intro Val World I s pre p post hsplit op hop q hq
    obtain ⟨k, hk, rfl⟩ := List.getElem_of_mem hop
    obtain ⟨hlen, hget⟩ := List.forall₂_iff_get.mp (h pre p post hsplit)
    exact (h.agrees I s hsplit).read ((hget k (hlen ▸ hk) hk).2 q hq)
  · intro Val World I s pre p post hsplit
    have hp : p ∈ matchBasicBlock cfg block liveOut := by
      rw [hsplit]
      exact List.mem_append_right _ List.mem_cons_self
    rw [matchBasicBlock_eq] at hp
    obtain ⟨-, hx, hops⟩ := of_mem_selected hp
    have hcurrent := h pre p post hsplit
    rw [hops] at hcurrent ⊢
    exact (h.agrees I s hsplit).operands hx hcurrent
  · intro Val World I s
    have hworld := (h.agrees_end I s).world
    rwa [List.take_length] at hworld
  · intro Val World I s r hr
    have hread := (h.agrees_end I s).read (lastWrite_liveOut hr)
    rwa [List.take_length] at hread

/-- Integers, for a run on values. -/
def arithmetic : Interp ℤ Unit where
  value x vs _ _ := match x, vs with
    | .binary .MUL _ _ _ _, [a, b] => a * b
    | .binary .ADD _ _ _ _, [a, b] => a + b
    | .other _ _ _ _, [a] => a
    | _, _ => 0
  effect _ _ w := w
  value_pure _ _ _ _ _ _ := rfl
  effect_of_not_hasEffect _ _ _ _ := rfl

/-- `r3 = r1 * r2; r1 = r5; r4 = r3 + r6` -/
def staleProduct : List Insn :=
  [.binary .MUL .float 3 1 2, .other 0 false [1] [5], .binary .ADD .float 4 3 6]

def relaxed : Config where
  relaxMath := true
  limitRegisterPressure := false
  optimizeImmediate := true

def registers : State ℤ Unit where
  env r := [0, 2, 3, 0, 0, 10, 1].getD r 0
  world := ()

/-- The product is computed after `r1` was written: `10 * 3 + 1`, where the block has
`2 * 3 + 1`. -/
theorem staleProduct_not_preserved :
    (runBlock arithmetic staleProduct registers).env 4 = 7 ∧
    (runCode arithmetic (matchBasicBlock relaxed staleProduct [1, 4]) registers).env 4 = 31 ∧
    ¬ Preserves relaxed staleProduct [1, 4] := by
  have hblock : (runBlock arithmetic staleProduct registers).env 4 = 7 := by decide
  have hcode : (runCode arithmetic (matchBasicBlock relaxed staleProduct [1, 4]) registers).env 4 =
    31 := by decide
  refine ⟨hblock, hcode, fun h => ?_⟩
  have heq := h.liveOut arithmetic registers 4 (by decide)
  rw [hblock, hcode] at heq
  cases heq

end Munch
