/-
Reaching definitions.

A program point is a block and a position in it; `Path edge r d b i` says that the
definition `d` of the register `r` gets to the point `(b, i)` along the control
flow graph without meeting a definition of `r`, leaving blocks only through the
edges that `edge` allows.

* `Reaches` — the paths that cross no edge whose source declares `r` undefined;
* `Flows` — the block by block transfer that `LiveOutSet` performs;
* `Path.flows` — a path that keeps `r` alive is a transfer;
* `Flows.path` — a transfer is a path that leaves every block with `r` alive.
-/
import Beignet.Ir.Value

namespace Ir

variable {fn : Function}

/-- The instruction at position `i` of `b` has `r` as destination, and `d` is that
destination. -/
def DefinesAt (r : Register) (d : ValueDef fn) (b : fn.Block) (i : ℕ) : Prop :=
  ∃ insn k, (fn.block b).insns[i]? = some insn ∧ insn.dst[k]? = some r ∧ d = .insnDst b i k

/-- `d` is a value that `r` holds when the function is entered. -/
def EntryDef (r : Register) (d : ValueDef fn) : Prop :=
  (∃ argID, fn.args[argID]? = some r ∧ d = .fnArg argID) ∨
    (fn.isSpecialReg r ∧ d = .specialReg r) ∨ (r ∈ fn.pushMap ∧ d = .fnPushed r)

inductive Path (edge : fn.Block → fn.Block → Prop) (r : Register) (d : ValueDef fn) :
    fn.Block → ℕ → Prop
  | defined {b : fn.Block} {i : ℕ} : DefinesAt r d b i → Path edge r d b (i + 1)
  | entry {b : fn.Block} : fn.isEntryBlock b → EntryDef r d → Path edge r d b 0
  | step {b : fn.Block} {i : ℕ} {insn : Instruction} : Path edge r d b i →
      (fn.block b).insns[i]? = some insn → r ∉ insn.dst → Path edge r d b (i + 1)
  | edge {b c : fn.Block} : Path edge r d b (fn.block b).insns.length → c ∈ fn.successors b →
      edge b c → Path edge r d c 0

/-- **Reaching definitions**: some path leads from `d` to the point `(b, i)` with no
other definition of `r` on it and no edge whose source declares `r` in
`undefPhiRegs`. -/
def Reaches (r : Register) (d : ValueDef fn) (b : fn.Block) (i : ℕ) : Prop :=
  Path (fun p _ => r ∉ (fn.block p).undefPhiRegs) r d b i

/-! ### Inside a block -/

/-- No instruction of `b` before position `i` defines `r`. -/
def Clear (r : Register) (b : fn.Block) (i : ℕ) : Prop :=
  ∀ j < i, ∀ insn, (fn.block b).insns[j]? = some insn → r ∉ insn.dst

/-- `d` is the last definition of `r` in `b` before position `i`. -/
def LastDef (r : Register) (d : ValueDef fn) (b : fn.Block) (i : ℕ) : Prop :=
  ∃ j < i, DefinesAt r d b j ∧
    ∀ k, j < k → k < i → ∀ insn, (fn.block b).insns[k]? = some insn → r ∉ insn.dst

theorem clear_zero (r : Register) (b : fn.Block) : Clear r b 0 :=
  fun j hj => absurd hj (Nat.not_lt_zero j)

theorem clear_succ {r : Register} {b : fn.Block} {i : ℕ} {insn : Instruction}
    (hi : (fn.block b).insns[i]? = some insn) :
    Clear r b (i + 1) ↔ Clear r b i ∧ r ∉ insn.dst := by
  constructor
  · intro h
    exact ⟨fun j hj => h j (by omega), h i (by omega) insn hi⟩
  · rintro ⟨h, hr⟩ j hj insn' hj'
    rcases Nat.lt_succ_iff_lt_or_eq.mp hj with hlt | rfl
    · exact h j hlt insn' hj'
    · rw [hi, Option.some_inj] at hj'
      exact hj' ▸ hr

theorem lastDef_succ {r : Register} {d : ValueDef fn} {b : fn.Block} {i : ℕ}
    {insn : Instruction} (hi : (fn.block b).insns[i]? = some insn) :
    LastDef r d b (i + 1) ↔ DefinesAt r d b i ∨ LastDef r d b i ∧ r ∉ insn.dst := by
  constructor
  · rintro ⟨j, hj, hd, hk⟩
    rcases Nat.lt_succ_iff_lt_or_eq.mp hj with hlt | rfl
    · exact .inr ⟨⟨j, hlt, hd, fun k hjk hki => hk k hjk (by omega)⟩, hk i hlt (by omega) insn hi⟩
    · exact .inl hd
  · rintro (hd | ⟨⟨j, hj, hd, hk⟩, hr⟩)
    · exact ⟨i, by omega, hd, fun k hik hki => by omega⟩
    · refine ⟨j, by omega, hd, fun k hjk hki insn' hk' => ?_⟩
      rcases Nat.lt_succ_iff_lt_or_eq.mp hki with hlt | rfl
      · exact hk k hjk hlt insn' hk'
      · rw [hi, Option.some_inj] at hk'
        exact hk' ▸ hr

theorem LastDef.not_clear {r : Register} {d : ValueDef fn} {b : fn.Block} {i : ℕ}
    (h : LastDef r d b i) : ¬ Clear r b i := by
  obtain ⟨j, hj, ⟨insn, k, hinsn, hk, -⟩, -⟩ := h
  intro hc
  exact hc j hj insn hinsn (List.mem_of_getElem? hk)

/-- A block is clear of definitions of `r` iff its summary does not kill `r`. -/
theorem clear_iff_notMem_varKill {r : Register} {b : fn.Block} :
    Clear r b (fn.block b).insns.length ↔ r ∉ (Liveness.initBlock (fn.block b)).varKill := by
  rw [Liveness.varKill_initBlock]
  constructor
  · rintro h ⟨insn, hmem, hr⟩
    obtain ⟨j, hj⟩ := List.mem_iff_getElem?.mp hmem
    exact h j (List.getElem?_eq_some_iff.mp hj).1 insn hj hr
  · intro h j _ insn hj hr
    exact h ⟨insn, List.mem_of_getElem? hj, hr⟩

/-- A register read before any definition of it is in the summary. -/
theorem mem_upwardUsed_of_clear {r : Register} {b : fn.Block} {i : ℕ} {insn : Instruction}
    (hi : (fn.block b).insns[i]? = some insn) (hr : r ∈ insn.src) (hc : Clear r b i) :
    r ∈ (Liveness.initBlock (fn.block b)).upwardUsed := by
  obtain ⟨hlt, heq⟩ := List.getElem?_eq_some_iff.mp hi
  refine Liveness.upwardUsed_initBlock.mpr
    ⟨(fn.block b).insns.take i, insn, (fn.block b).insns.drop (i + 1), ?_, hr, ?_⟩
  · rw [← heq, List.cons_getElem_drop_succ, List.take_append_drop]
  · intro j hj
    obtain ⟨k, hk⟩ := List.mem_iff_getElem?.mp hj
    rw [List.getElem?_take] at hk
    split at hk
    · rename_i hlt'
      exact hc k hlt' j hk
    · cases hk

/-! ### Paths, block by block -/

theorem Path.extend {edge : fn.Block → fn.Block → Prop} {r : Register} {d : ValueDef fn}
    {b : fn.Block} {i : ℕ} (h : Path edge r d b i) :
    ∀ {n : ℕ}, i ≤ n → n ≤ (fn.block b).insns.length →
      (∀ k, i ≤ k → k < n → ∀ insn, (fn.block b).insns[k]? = some insn → r ∉ insn.dst) →
      Path edge r d b n := by
  intro n hin
  induction n, hin using Nat.le_induction with
  | base => exact fun _ _ => h
  | succ n hin ih =>
    intro hn hk
    have hlt : n < (fn.block b).insns.length := hn
    refine .step (ih (by omega) fun k h1 h2 => hk k h1 (by omega))
      (List.getElem?_eq_getElem hlt) ?_
    exact hk n hin (by omega) _ (List.getElem?_eq_getElem hlt)

theorem Path.of_clear {edge : fn.Block → fn.Block → Prop} {r : Register} {d : ValueDef fn}
    {b : fn.Block} {i : ℕ} (h : Path edge r d b 0) (hi : i ≤ (fn.block b).insns.length)
    (hc : Clear r b i) : Path edge r d b i :=
  h.extend (Nat.zero_le _) hi fun k _ hk => hc k hk

theorem LastDef.path {edge : fn.Block → fn.Block → Prop} {r : Register} {d : ValueDef fn}
    {b : fn.Block} {i : ℕ} (h : LastDef r d b i) (hi : i ≤ (fn.block b).insns.length) :
    Path edge r d b i := by
  obtain ⟨j, hj, hd, hk⟩ := h
  exact (Path.defined hd).extend hj hi fun k h1 h2 => hk k h1 h2

/-- The transfer of definitions that `LiveOutSet` performs: `d` is one of the
definitions of `r` at the end of the block. -/
inductive Flows (info : fn.Block → Liveness.BlockInfo) (r : Register) (d : ValueDef fn) :
    fn.Block → Prop
  | here {b : fn.Block} : r ∈ (info b).liveOut → LastDef r d b (fn.block b).insns.length →
      Flows info r d b
  | entry {b : fn.Block} : r ∈ (info b).liveOut → Clear r b (fn.block b).insns.length →
      fn.isEntryBlock b → EntryDef r d → Flows info r d b
  | edge {b c : fn.Block} : Flows info r d b → c ∈ fn.successors b → r ∈ (info c).liveOut →
      Clear r c (fn.block c).insns.length → Flows info r d c

variable {info : fn.Block → Liveness.BlockInfo} {r : Register} {d : ValueDef fn}

theorem Flows.mem_liveOut {b : fn.Block} (h : Flows info r d b) : r ∈ (info b).liveOut := by
  cases h with
  | here h => exact h
  | entry h => exact h
  | edge _ _ h => exact h

/-- `d` comes into the block: from the caller, or from a predecessor that does not
declare `r` undefined. -/
def Incoming (info : fn.Block → Liveness.BlockInfo) (r : Register) (d : ValueDef fn)
    (b : fn.Block) : Prop :=
  (fn.isEntryBlock b ∧ EntryDef r d) ∨
    ∃ p, b ∈ fn.successors p ∧ r ∉ (fn.block p).undefPhiRegs ∧ Flows info r d p

/-- The chain that the walk over the block gives to a use of `r` at position `i`. -/
def Chain (info : fn.Block → Liveness.BlockInfo) (r : Register) (d : ValueDef fn)
    (b : fn.Block) (i : ℕ) : Prop :=
  LastDef r d b i ∨ Clear r b i ∧ Incoming info r d b

/-- The paths that leave every block with `r` alive at its end. -/
def LivePath (info : fn.Block → Liveness.BlockInfo) (r : Register) (d : ValueDef fn)
    (b : fn.Block) (i : ℕ) : Prop :=
  Path (fun p _ => r ∈ (info p).liveOut) r d b i

theorem Flows.path {b : fn.Block} (h : Flows info r d b) :
    LivePath info r d b (fn.block b).insns.length := by
  induction h with
  | here _ hd => exact hd.path le_rfl
  | entry _ hc hb hd => exact (Path.entry hb hd).of_clear le_rfl hc
  | edge hp hsucc _ hc ih => exact (Path.edge ih hsucc hp.mem_liveOut).of_clear le_rfl hc

variable (info) in
/-- A path along which `r` stays alive is a transfer.  `A b` stands for "`r` is
alive at the entry of `b`": what an edge and a block clear of definitions hand
backwards. -/
theorem Path.flows {edge : fn.Block → fn.Block → Prop} {A : fn.Block → Prop}
    (hedge : ∀ p c, c ∈ fn.successors p → edge p c → A c → r ∈ (info p).liveOut)
    (halive : ∀ p c, c ∈ fn.successors p → edge p c → A c →
      Clear r p (fn.block p).insns.length → A p)
    {b : fn.Block} {i : ℕ} (h : Path edge r d b i) :
    LastDef r d b i ∨ Clear r b i ∧ (A b → (fn.isEntryBlock b ∧ EntryDef r d) ∨
      ∃ p, b ∈ fn.successors p ∧ edge p b ∧ Flows info r d p) := by
  induction h with
  | @defined b i hd =>
    exact .inl ⟨i, by omega, hd, fun k h1 h2 => by omega⟩
  | @entry b hb hd => exact .inr ⟨clear_zero r b, fun _ => .inl ⟨hb, hd⟩⟩
  | step _ hi hr ih =>
    rcases ih with hd | ⟨hc, hin⟩
    · exact .inl ((lastDef_succ hi).mpr (.inr ⟨hd, hr⟩))
    · exact .inr ⟨(clear_succ hi).mpr ⟨hc, hr⟩, hin⟩
  | @edge p c _ hsucc he ih =>
    refine .inr ⟨clear_zero r c, fun hc => .inr ⟨p, hsucc, he, ?_⟩⟩
    have hout := hedge p c hsucc he hc
    rcases ih with hd | ⟨hclear, hin⟩
    · exact .here hout hd
    · rcases hin (halive p c hsucc he hc hclear) with ⟨hp, hd⟩ | ⟨q, hq, -, hflow⟩
      · exact .entry hout hclear hp hd
      · exact .edge hflow hq hout hclear

/-- Every definition that reaches a use is in its chain: the liveness analysis keeps
the register alive all along the path. -/
theorem Reaches.chain {live : Liveness.LiveSets fn} (hl : Liveness.IsSolution fn live)
    (hlo : ∀ b, live.2 b ⊆ ↑(info b).liveOut) {b : fn.Block} {i : ℕ} {insn : Instruction}
    (hi : (fn.block b).insns[i]? = some insn) (hr : r ∈ insn.src) (h : Reaches r d b i) :
    Chain info r d b i := by
  have hclosed := hl.closed
  rcases Path.flows info (A := fun c => r ∈ live.1 c)
    (fun p c hsucc hu hc => hlo p (hclosed.edge p c hsucc ⟨hc, hu⟩))
    (fun p c hsucc hu hc hclear => hclosed.through p
      ⟨hclosed.edge p c hsucc ⟨hc, hu⟩, clear_iff_notMem_varKill.mp hclear⟩) h with
    hd | ⟨hclear, hin⟩
  · exact .inl hd
  · exact .inr ⟨hclear, hin (hclosed.upwardUsed b (mem_upwardUsed_of_clear hi hr hclear))⟩

theorem flows_of_livePath {b : fn.Block} (h : LivePath info r d b (fn.block b).insns.length)
    (hb : r ∈ (info b).liveOut) : Flows info r d b := by
  rcases Path.flows info (A := fun _ => True) (fun p _ _ hp _ => hp)
    (fun _ _ _ _ _ _ => trivial) h with hd | ⟨hclear, hin⟩
  · exact .here hb hd
  · rcases hin trivial with ⟨htop, hd⟩ | ⟨p, hp, -, hflow⟩
    · exact .entry hb hclear htop hd
    · exact .edge hflow hp hb hclear

/-! ### The condition -/

/-- No definition leaks over an edge whose source declares the register undefined:
whenever `d` gets to the end of `p` on a path that leaves every block, `p` included,
with `r` alive, `p` does not declare `r` undefined and its successor `b` reads `r`
before defining it, then `d` also reaches that use without crossing such an edge. -/
def NoLeak (fn : Function) (info : fn.Block → Liveness.BlockInfo) : Prop :=
  ∀ (r : Register) (d : ValueDef fn) (p b : fn.Block) (i : ℕ) (insn : Instruction),
    LivePath info r d p (fn.block p).insns.length → r ∈ (info p).liveOut →
    r ∉ (fn.block p).undefPhiRegs → b ∈ fn.successors p →
    (fn.block b).insns[i]? = some insn → r ∈ insn.src → Clear r b i → Reaches r d b i

theorem Path.mono {edge edge' : fn.Block → fn.Block → Prop} (hedge : ∀ p c, edge p c → edge' p c)
    {b : fn.Block} {i : ℕ} (h : Path edge r d b i) : Path edge' r d b i := by
  induction h with
  | defined hd => exact .defined hd
  | entry htop hd => exact .entry htop hd
  | step _ hi hr ih => exact .step ih hi hr
  | edge _ hsucc he ih => exact .edge ih hsucc (hedge _ _ he)

/-- Without phi copies left undefined nothing can leak. -/
theorem noLeak_of_undefPhiRegs_eq_empty (h : ∀ b, (fn.block b).undefPhiRegs = ∅) :
    NoLeak fn info := by
  intro r d p b i insn hpath _ hu hsucc hi _ hclear
  have hclean : Reaches r d p (fn.block p).insns.length :=
    Path.mono (fun q _ _ => by simp [h q]) hpath
  exact (Path.edge hclean hsucc hu).of_clear (List.getElem?_eq_some_iff.mp hi).1.le hclear

/-- The chains are the reaching definitions exactly when nothing leaks. -/
theorem chain_iff_reaches {live : Liveness.LiveSets fn} (hl : Liveness.IsSolution fn live)
    (hlo : ∀ b, live.2 b ⊆ ↑(info b).liveOut) :
    (∀ r d b i insn, (fn.block b).insns[i]? = some insn → r ∈ insn.src →
      (Chain info r d b i ↔ Reaches r d b i)) ↔ NoLeak fn info := by
  constructor
  · intro h r d p b i insn hpath hout hu hsucc hi hr hclear
    exact (h r d b i insn hi hr).mp
      (.inr ⟨hclear, .inr ⟨p, hsucc, hu, flows_of_livePath hpath hout⟩⟩)
  · intro h r d b i insn hi hr
    have hlen : i ≤ (fn.block b).insns.length := (List.getElem?_eq_some_iff.mp hi).1.le
    refine ⟨?_, fun hreach => hreach.chain hl hlo hi hr⟩
    rintro (hd | ⟨hclear, ⟨htop, hd⟩ | ⟨p, hsucc, hu, hflow⟩⟩)
    · exact hd.path hlen
    · exact (Path.entry htop hd).of_clear hlen hclear
    · exact h r d p b i insn hflow.path hflow.mem_liveOut hu hsucc hi hr hclear

end Ir
