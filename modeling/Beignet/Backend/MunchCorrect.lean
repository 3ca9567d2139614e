/-
What instruction selection preserves.

Every opcode is an uninterpreted function of its operands (and, for the instructions that
no pattern merges, of the rest of the machine).  The emitted code is compared with the
block: an instruction in it reads registers for itself and for the children merged into
it, and each of them should hold what the IR gives that operand.

* `matchLoop_eq` — the code is in the order of the block;
* `selected_closed` — what an emitted instruction marks is emitted;
* `simulates` — where the code reads the definitions of the IR, the machine along the code
  is that along the block.
-/
import Beignet.Backend.MaximalMunch

namespace Munch

/-! ### Meaning -/

/-- Registers, and the rest of the machine. -/
structure State (Val World : Type*) where
  env : Reg → Val
  world : World

/-- The results and the effect of every instruction. -/
structure Interp (Val World : Type*) where
  value : Insn → List Val → World → ℕ → Val
  effect : Insn → List Val → World → World
  value_pure : ∀ x, x.isPure = true → ∀ vs w w' k, value x vs w k = value x vs w' k
  effect_of_not_hasEffect : ∀ x, x.hasEffect = false → ∀ vs w, effect x vs w = w

section Run

variable {Val World : Type*} (I : Interp Val World)

/-- An instruction with the values of its operands. -/
def exec (x : Insn) (vs : List Val) (s : State Val World) : State Val World where
  env r := if r ∈ x.dsts then I.value x vs s.world (x.dsts.idxOf r) else s.env r
  world := I.effect x vs s.world

/-- The block. -/
def runBlock (block : List Insn) (s : State Val World) : State Val World :=
  block.foldl (fun s x => exec I x (x.srcs.map s.env) s) s

def Leaf.eval (s : State Val World) : Leaf → Val
  | .reg r => s.env r
  | .node _ x => I.value x (x.srcs.map s.env) s.world 0

def Operand.eval (s : State Val World) : Operand → Val
  | .leaf l => l.eval I s
  | .merged _ x args => I.value x (args.map (Leaf.eval I s)) s.world 0

/-- The emitted code. -/
def runCode (code : List Selected) (s : State Val World) : State Val World :=
  code.foldl (fun s p => exec I p.insn (p.operands.map (Operand.eval I s)) s) s

end Run

/-! ### The order of the code -/

variable {cfg : Config} {block : List Insn}

/-- The code of the first instructions, given the roots. -/
def selected (cfg : Config) (block : List Insn) : ℕ → (ℕ → Bool) → List Selected
  | 0, _ => []
  | i + 1, isRoot =>
    match block[i]? with
    | some x =>
      if isRoot i then
        let e := emit cfg block i x
        selected cfg block i (fun j => isRoot j || decide (j ∈ e.marks)) ++ [⟨i, x, e.operands⟩]
      else selected cfg block i isRoot
    | none => selected cfg block i isRoot

theorem selected_succ (i : ℕ) (isRoot : ℕ → Bool) : selected cfg block (i + 1) isRoot =
    match block[i]? with
    | some x =>
      if isRoot i then
        selected cfg block i (fun j => isRoot j || decide (j ∈ (emit cfg block i x).marks)) ++
          [⟨i, x, (emit cfg block i x).operands⟩]
      else selected cfg block i isRoot
    | none => selected cfg block i isRoot := rfl

theorem matchLoop_eq (i : ℕ) : ∀ isRoot code,
    matchLoop cfg block i isRoot code = selected cfg block i isRoot ++ code := by
  induction i with
  | zero => exact fun _ _ => rfl
  | succ i ih =>
    intro isRoot code
    rw [matchLoop, selected_succ]
    rcases block[i]? with _ | x
    · exact ih _ _
    · cases isRoot i with
      | false => exact ih _ _
      | true =>
        simp only [if_true]
        rw [ih, List.append_assoc, List.singleton_append]

/-- The roots after the pattern of `i` has marked its nodes. -/
def marked (cfg : Config) (block : List Insn) (isRoot : ℕ → Bool) (i : ℕ) (x : Insn) : ℕ → Bool :=
  fun j => isRoot j || decide (j ∈ (emit cfg block i x).marks)

theorem selected_succ_of_root {i : ℕ} {isRoot : ℕ → Bool} {x : Insn} (hx : block[i]? = some x)
    (hroot : isRoot i = true) : selected cfg block (i + 1) isRoot =
      selected cfg block i (marked cfg block isRoot i x) ++
        [⟨i, x, (emit cfg block i x).operands⟩] := by
  rw [selected_succ, hx]
  simp only [hroot, if_true]
  rfl

theorem selected_succ_of_not {i : ℕ} {isRoot : ℕ → Bool} (hroot : isRoot i = false) :
    selected cfg block (i + 1) isRoot = selected cfg block i isRoot := by
  rw [selected_succ]
  split
  · simp [hroot]
  · rfl

/-- A root is emitted. -/
theorem mem_selected {n i : ℕ} {isRoot : ℕ → Bool} {x : Insn} (hi : i < n)
    (hx : block[i]? = some x) (hroot : isRoot i = true) :
    ⟨i, x, (emit cfg block i x).operands⟩ ∈ selected cfg block n isRoot := by
  induction n generalizing isRoot with
  | zero => omega
  | succ n ih =>
    cases hn : isRoot n with
    | false =>
      rw [selected_succ_of_not hn]
      refine ih ?_ hroot
      rcases Nat.lt_succ_iff_lt_or_eq.mp hi with h | rfl
      · exact h
      · rw [hn] at hroot
        cases hroot
    | true =>
      rcases hy : block[n]? with _ | y
      · rw [selected_succ, hy]
        have hne : i ≠ n := fun h => by rw [h, hy] at hx; cases hx
        exact ih (by omega) hroot
      · rw [selected_succ_of_root hy hn, List.mem_append]
        rcases Nat.lt_succ_iff_lt_or_eq.mp hi with h | rfl
        · exact Or.inl (ih h (by simp [marked, hroot]))
        · rw [hx, Option.some_inj] at hy
          subst hy
          exact Or.inr List.mem_cons_self

/-- Every emitted instruction is an instruction of the block, with the operands of its
pattern. -/
theorem of_mem_selected {n : ℕ} {isRoot : ℕ → Bool} {p : Selected}
    (h : p ∈ selected cfg block n isRoot) :
    p.index < n ∧ block[p.index]? = some p.insn ∧
      p.operands = (emit cfg block p.index p.insn).operands := by
  induction n generalizing isRoot with
  | zero => cases h
  | succ n ih =>
    have hprefix : ∀ isRoot', p ∈ selected cfg block n isRoot' → p.index < n + 1 ∧
        block[p.index]? = some p.insn ∧
          p.operands = (emit cfg block p.index p.insn).operands := by
      intro isRoot' hp
      obtain ⟨hlt, hrest⟩ := ih hp
      exact ⟨Nat.lt_succ_of_lt hlt, hrest⟩
    rw [selected_succ] at h
    split at h
    · rename_i x hx
      split at h
      · rcases List.mem_append.mp h with h | h
        · exact hprefix _ h
        · obtain rfl := List.mem_singleton.mp h
          exact ⟨Nat.lt_succ_self n, hx, rfl⟩
      · exact hprefix _ h
    · exact hprefix _ h

theorem selected_pairwise {n : ℕ} {isRoot : ℕ → Bool} :
    (selected cfg block n isRoot).Pairwise fun p q => p.index < q.index := by
  induction n generalizing isRoot with
  | zero => exact List.Pairwise.nil
  | succ n ih =>
    rw [selected_succ]
    split
    · split
      · refine List.pairwise_append.mpr ⟨ih, List.pairwise_singleton .., fun p hp q hq => ?_⟩
        obtain rfl := List.mem_singleton.mp hq
        exact (of_mem_selected hp).1
      · exact ih
    · exact ih

/-- The places of the code. -/
def emitted (code : List Selected) : List ℕ := code.map Selected.index

/-- What an emitted instruction marks is emitted. -/
theorem selected_closed {n k c : ℕ} {isRoot : ℕ → Bool} {x : Insn}
    (hk : k ∈ emitted (selected cfg block n isRoot)) (hx : block[k]? = some x) (hc : c < k)
    (hmark : c ∈ (emit cfg block k x).marks) : c ∈ emitted (selected cfg block n isRoot) := by
  have hlen : k < block.length := (List.getElem?_eq_some_iff.mp hx).1
  obtain ⟨y, hy⟩ : ∃ y, block[c]? = some y := ⟨_, List.getElem?_eq_getElem (Nat.lt_trans hc hlen)⟩
  induction n generalizing isRoot with
  | zero => cases hk
  | succ n ih =>
    cases hn : isRoot n with
    | false =>
      rw [selected_succ_of_not hn] at hk ⊢
      exact ih hk
    | true =>
      rcases hz : block[n]? with _ | z
      · rw [selected_succ, hz] at hk ⊢
        exact ih hk
      · rw [selected_succ_of_root hz hn] at hk ⊢
        rw [emitted, List.map_append, List.mem_append] at hk ⊢
        rcases hk with hk | hk
        · exact Or.inl (ih hk)
        · obtain rfl : k = n := by simpa using hk
          rw [hx, Option.some_inj] at hz
          subst hz
          have hroot : marked cfg block isRoot k x c = true := by simp [marked, hmark]
          exact Or.inl (List.mem_map.mpr ⟨_, mem_selected hc hy hroot, rfl⟩)

/-! ### Definitions that the code has left -/

/-- The last instruction of the code that writes a register. -/
def lastWrite (code : List Selected) (r : Reg) : Option ℕ :=
  (code.reverse.find? fun p => decide (r ∈ p.insn.dsts)).map Selected.index

theorem lastWrite_append (code : List Selected) (p : Selected) (r : Reg) :
    lastWrite (code ++ [p]) r = if r ∈ p.insn.dsts then some p.index else lastWrite code r := by
  rw [lastWrite, List.reverse_append, List.reverse_singleton, List.singleton_append,
    List.find?_cons]
  by_cases h : r ∈ p.insn.dsts
  · simp [h]
  · simp [h, lastWrite]

theorem exists_of_lastWrite {code : List Selected} {c : ℕ} {r : Reg}
    (h : lastWrite code r = some c) : ∃ p ∈ code, p.index = c ∧ r ∈ p.insn.dsts := by
  obtain ⟨p, hp, hc⟩ := Option.map_eq_some_iff.mp h
  have hr := List.find?_some hp
  exact ⟨p, List.mem_reverse.mp (List.mem_of_find?_eq_some hp), hc, by simpa using hr⟩

/-- No write of ordered code is later than the last one. -/
theorem le_lastWrite {code : List Selected} (hcode : code.Pairwise fun p q => p.index < q.index)
    {p : Selected} (hp : p ∈ code) {r : Reg} (hr : r ∈ p.insn.dsts) :
    ∃ c, lastWrite code r = some c ∧ p.index ≤ c := by
  induction code using List.reverseRecOn with
  | nil => cases hp
  | append_singleton code q ih =>
    rw [List.pairwise_append] at hcode
    rw [lastWrite_append]
    rcases List.mem_append.mp hp with hp | hp
    · split
      · exact ⟨q.index, rfl, Nat.le_of_lt (hcode.2.2 p hp q List.mem_cons_self)⟩
      · exact ih hcode.1 hp
    · obtain rfl := List.mem_singleton.mp hp
      rw [if_pos hr]
      exact ⟨p.index, rfl, Nat.le_refl _⟩

/-- The registers that an operand reads hold the definitions that the IR gives it: the
definition has been emitted, and it has not been overwritten since.  A merged child is
the definition of the source it stands for. -/
def Operand.Current (block : List Insn) (code : List Selected) (i : ℕ) (r : Reg) (op : Operand) :
    Prop :=
  (∀ j x args, op = .merged j x args → regDAG block i r = some j) ∧
    ∀ q ∈ op.reads i, lastWrite code q.2 = regDAG block q.1 q.2

/-- The same for every instruction of the code. -/
def AllCurrent (block : List Insn) (code : List Selected) : Prop :=
  ∀ pre p post, code = pre ++ p :: post →
    List.Forall₂ (Operand.Current block pre p.index) p.insn.srcs p.operands

theorem AllCurrent.of_append {code code' : List Selected} (h : AllCurrent block (code ++ code')) :
    AllCurrent block code :=
  fun pre p post hcode => h pre p (post ++ code') (by rw [hcode, List.append_assoc]; rfl)

/-! ### The machine along the code -/

section Simulation

variable {Val World : Type*} (I : Interp Val World)

theorem runBlock_take_succ {i : ℕ} {x : Insn} (hx : block[i]? = some x) (s : State Val World) :
    runBlock I (block.take (i + 1)) s = exec I x
      (x.srcs.map (runBlock I (block.take i) s).env) (runBlock I (block.take i) s) := by
  rw [List.take_add_one, hx, Option.toList_some, runBlock, List.foldl_append]
  rfl

theorem runBlock_take_succ_of_none {i : ℕ} (hx : block[i]? = none) (s : State Val World) :
    runBlock I (block.take (i + 1)) s = runBlock I (block.take i) s := by
  rw [List.take_add_one, hx, Option.toList_none, List.append_nil]

theorem runCode_append (code code' : List Selected) (s : State Val World) :
    runCode I (code ++ code') s = runCode I code' (runCode I code s) :=
  List.foldl_append ..

/-- A register holds what its last definition has left in it. -/
theorem env_of_regDAG (s : State Val World) (i : ℕ) (r : Reg) :
    (runBlock I (block.take i) s).env r =
      (runBlock I (block.take ((regDAG block i r).elim 0 (· + 1))) s).env r := by
  induction i with
  | zero => rfl
  | succ i ih =>
    rw [regDAG]
    rcases hx : block[i]? with _ | x
    · rw [runBlock_take_succ_of_none I hx]
      exact ih
    · simp only
      split
      · rfl
      · rename_i hr
        rw [runBlock_take_succ I hx, ← ih]
        simp [exec, hr]

/-- No definition in front of a place is later than the last one. -/
theorem regDAG_last {i k : ℕ} {r : Reg} {x : Insn} (hk : k < i) (hx : block[k]? = some x)
    (hr : r ∈ x.dsts) : ∃ c, regDAG block i r = some c ∧ k ≤ c := by
  induction i with
  | zero => omega
  | succ i ih =>
    rw [regDAG]
    rcases Nat.lt_succ_iff_lt_or_eq.mp hk with hlt | rfl
    · rcases hy : block[i]? with _ | y
      · exact ih hlt
      · simp only
        split
        · exact ⟨i, rfl, Nat.le_of_lt hlt⟩
        · exact ih hlt
    · rw [hx]
      simp only [hr, if_true]
      exact ⟨k, rfl, Nat.le_refl k⟩

theorem regDAG_writes {i c : ℕ} {r : Reg} (h : regDAG block i r = some c) :
    ∃ x, block[c]? = some x ∧ r ∈ x.dsts := by
  induction i with
  | zero => cases h
  | succ i ih =>
    rw [regDAG] at h
    split at h
    · rename_i x hx
      split at h
      · rename_i hr
        obtain rfl : i = c := by simpa using h
        exact ⟨x, hx, hr⟩
      · exact ih h
    · exact ih h

/-- The rest of the machine is that of the block, and every register holds what the
instruction that wrote it last has left in it. -/
structure Agrees (block : List Insn) (s : State Val World) (code : List Selected) (i : ℕ)
    (t : State Val World) : Prop where
  world : t.world = (runBlock I (block.take i) s).world
  env : ∀ r, t.env r = (runBlock I (block.take ((lastWrite code r).elim 0 (· + 1))) s).env r

theorem idxOf_of_isPure {x : Insn} (h : x.isPure = true) {r : Reg} (hr : r ∈ x.dsts) :
    x.dsts.idxOf r = 0 := by
  cases x with
  | other => cases h
  | _ =>
    obtain rfl := List.mem_singleton.mp hr
    simp [Insn.dsts]

variable {I} {s t : State Val World} {code : List Selected} {i : ℕ} {marks : List ℕ}

/-- A register that is read for some node holds what the node saw. -/
theorem Agrees.read (h : Agrees I block s code i t) {owner : ℕ} {r : Reg}
    (hcurrent : lastWrite code r = regDAG block owner r) :
    t.env r = (runBlock I (block.take owner) s).env r := by
  rw [h.env r, hcurrent, ← env_of_regDAG]

/-- A merged node computes what it has computed in its own place. -/
theorem value_eq_env {x : Insn} {j owner : ℕ} {r : Reg} {vs : List Val} (hx : block[j]? = some x)
    (hpure : x.isPure = true) (hr : regDAG block owner r = some j)
    (hvs : vs = x.srcs.map (runBlock I (block.take j) s).env) (w : World) :
    I.value x vs w 0 = (runBlock I (block.take owner) s).env r := by
  obtain ⟨y, hy, hry⟩ := regDAG_writes hr
  rw [hx, Option.some_inj] at hy
  subst hy
  rw [env_of_regDAG, hr, Option.elim_some, runBlock_take_succ I hx]
  simp only [exec, if_pos hry]
  rw [idxOf_of_isPure hpure hry, hvs]
  exact I.value_pure x hpure _ _ _ _

theorem Agrees.leaf (h : Agrees I block s code i t) {owner : ℕ} {r : Reg} {l : Leaf}
    (hl : l.Ok cfg block marks owner r)
    (hcurrent : ∀ q ∈ l.reads owner, lastWrite code q.2 = regDAG block q.1 q.2) :
    l.eval I t = (runBlock I (block.take owner) s).env r := by
  cases l with
  | reg r' =>
    obtain ⟨rfl, -⟩ := hl
    exact h.read (hcurrent (owner, r') List.mem_cons_self)
  | node j x =>
    obtain ⟨hr, hx, hpure, -⟩ := hl
    refine value_eq_env hx hpure hr (List.map_congr_left fun r' hr' => ?_) _
    exact h.read (hcurrent (j, r') (List.mem_map.mpr ⟨r', hr', rfl⟩))

theorem Agrees.operand (h : Agrees I block s code i t) {r : Reg} {op : Operand}
    (hop : op.Ok cfg block marks i r) (hcurrent : op.Current block code i r) :
    op.eval I t = (runBlock I (block.take i) s).env r := by
  cases op with
  | leaf l => exact h.leaf hop hcurrent.2
  | merged j x args =>
    obtain ⟨hx, hpure, hargs⟩ := hop
    refine value_eq_env hx hpure (hcurrent.1 j x args rfl) ?_ _
    have hread : ∀ l ∈ args, ∀ q ∈ l.reads j, lastWrite code q.2 = regDAG block q.1 q.2 :=
      fun l hl q hq => hcurrent.2 q (List.mem_flatMap.mpr ⟨l, hl, hq⟩)
    -- argument by argument
    clear hcurrent hpure hx
    generalize x.srcs = rs at hargs
    induction hargs with
    | nil => rfl
    | cons hl _ ih =>
      rw [List.map_cons, List.map_cons, ih fun l hl => hread l (List.mem_cons_of_mem _ hl),
        h.leaf hl (hread _ List.mem_cons_self)]

/-- The operands of an emitted instruction have the values of its sources. -/
theorem Agrees.operands (h : Agrees I block s code i t) {x : Insn} (hx : block[i]? = some x)
    (hcurrent : List.Forall₂ (Operand.Current block code i) x.srcs (emit cfg block i x).operands) :
    (emit cfg block i x).operands.map (Operand.eval I t) =
      x.srcs.map (runBlock I (block.take i) s).env := by
  have hok := emit_spec cfg hx
  rw [Emission.Ok] at hok
  generalize (emit cfg block i x).operands = ops at hok hcurrent
  generalize x.srcs = rs at hok hcurrent
  induction hok with
  | nil => rfl
  | cons hop _ ih =>
    obtain ⟨hhead, htail⟩ := List.forall₂_cons.mp hcurrent
    rw [List.map_cons, List.map_cons, h.operand hop hhead, ih htail]

/-- One more instruction, with the values that it has in the block. -/
theorem Agrees.exec (h : Agrees I block s code i t) {x : Insn} (hx : block[i]? = some x)
    (ops : List Operand) : Agrees I block s (code ++ [⟨i, x, ops⟩]) (i + 1)
      (exec I x (x.srcs.map (runBlock I (block.take i) s).env) t) := by
  have hworld := h.world
  refine ⟨?_, fun r => ?_⟩
  · rw [runBlock_take_succ I hx]
    simp only [Munch.exec, hworld]
  · rw [lastWrite_append]
    by_cases hr : r ∈ x.dsts
    · simp only [if_pos hr, Option.elim_some, Munch.exec]
      rw [runBlock_take_succ I hx]
      simp only [Munch.exec, if_pos hr, hworld]
    · simp only [if_neg hr, Munch.exec]
      exact h.env r

/-- An instruction without effect is passed over. -/
theorem Agrees.skip (h : Agrees I block s code i t)
    (hx : ∀ x, block[i]? = some x → x.hasEffect = false) : Agrees I block s code (i + 1) t := by
  refine ⟨h.world.trans ?_, h.env⟩
  rcases hi : block[i]? with _ | x
  · rw [runBlock_take_succ_of_none I hi]
  · rw [runBlock_take_succ I hi]
    exact (I.effect_of_not_hasEffect x (hx x hi) _ _).symm

/-- The machine along the code and along the block. -/
theorem simulates (I : Interp Val World) (s : State Val World) {isRoot : ℕ → Bool}
    (heffect : ∀ k x, block[k]? = some x → x.hasEffect = true → isRoot k = true)
    (hcurrent : AllCurrent block (selected cfg block i isRoot)) :
    Agrees I block s (selected cfg block i isRoot) i
      (runCode I (selected cfg block i isRoot) s) := by
  induction i generalizing isRoot with
  | zero => exact ⟨rfl, fun _ => rfl⟩
  | succ i ih =>
    rcases hx : block[i]? with _ | x
    · have hsel : selected cfg block (i + 1) isRoot = selected cfg block i isRoot := by
        rw [selected, hx]
      rw [hsel] at hcurrent ⊢
      refine (ih heffect hcurrent).skip fun x hx' => ?_
      rw [hx] at hx'
      cases hx'
    cases hroot : isRoot i with
    | false =>
      rw [selected_succ_of_not hroot] at hcurrent ⊢
      refine (ih heffect hcurrent).skip fun y hy => ?_
      cases h : y.hasEffect with
      | false => rfl
      | true =>
        rw [heffect i y hy h] at hroot
        cases hroot
    | true =>
      rw [selected_succ_of_root hx hroot] at hcurrent ⊢
      have hroots : ∀ k y, block[k]? = some y → y.hasEffect = true →
          marked cfg block isRoot i x k = true :=
        fun k y hy hk => by simp [marked, heffect k y hy hk]
      have hih := ih hroots hcurrent.of_append
      have hops := hih.operands hx (hcurrent _ _ [] rfl)
      rw [runCode_append]
      show Agrees I block s _ (i + 1) (exec I x (List.map _ _) _)
      rw [hops]
      exact hih.exec hx _

end Simulation

end Munch
