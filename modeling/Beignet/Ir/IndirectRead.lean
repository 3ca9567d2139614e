/-
`FunctionArgumentLowerer::lowerIndirectRead` (`lowering.cpp`): the private loads whose address
comes from a structure argument.

The registers that derive from the argument are a list that grows while it is scanned, and a
register is appended each time it is reached.  An ADD of the argument starts a derived register;
what else uses the argument itself is skipped.  An assertion that fails ends the scan.

* `run_of_reached` — once the argument has become a destination, the scan does not end;
* `exists_run_iff` — when it ends, and what it has collected then;
* **`lowerIndirectRead_iff`** — when it ends with exactly the loads that derive from the argument.
-/
import Beignet.Lib.Worklist

namespace Ir

namespace IndirectRead

open Worklist

abbrev Register := ℕ

/-! ### The code -/

/-- What the analysis tells apart. -/
inductive Insn where
  | add (dst src0 src1 : Register)
  /-- a load from private memory: its binding table index is no register -/
  | loadPrivate (values : List Register) (addr : Register)
  | load (values src : List Register)
  | other (dst src : List Register)

namespace Insn

def src : Insn → List Register
  | add _ src0 src1 => [src0, src1]
  | loadPrivate _ addr => [addr]
  | load _ src => src
  | other _ src => src

def dst : Insn → List Register
  | add dst _ _ => [dst]
  | loadPrivate values _ => values
  | load values _ => values
  | other dst _ => dst

end Insn

/-- The uses of each register, in any order: an instruction is named by its place. -/
structure FunctionDAG where
  insns : List Insn
  regUse : Register → List ℕ
  src_of_mem : ∀ r k, k ∈ regUse r → ∃ insn, insns[k]? = some insn ∧ r ∈ insn.src

structure IndirectLoad where
  load : ℕ
  adds : List ℕ

/-- The state of the search, `i` on the way through `derivedRegs`. -/
structure State where
  i : ℕ
  derivedRegs : List Register
  addPtrInsns : Register → Option (List ℕ)
  indirectSeq : List IndirectLoad

variable (dag : FunctionDAG) (arg : Register)

/-- A use that is neither an ADD of the argument nor a load: the additions are handed on, if there
are any. -/
def follow (s : State) (r dst : Register) : State :=
  match s.addPtrInsns r with
  | none => s
  | some adds =>
    { s with
      addPtrInsns :=
        Function.update s.addPtrInsns dst (some ((s.addPtrInsns dst).getD [] ++ adds))
      derivedRegs := s.derivedRegs ++ [dst] }

/-- One use of the register `r`; `none` if an assertion fails. -/
def visitUse (r : Register) (s : State) (k : ℕ) : Option State :=
  match dag.insns[k]? with
  | none => none
  | some (.add dst _ _) =>
    if r = arg then
      match s.addPtrInsns r with
      | some _ => none
      | none =>
        some { s with
          addPtrInsns :=
            Function.update s.addPtrInsns dst (some ((s.addPtrInsns dst).getD [k]))
          derivedRegs := s.derivedRegs ++ [dst] }
    else some (follow s r dst)
  | some (.loadPrivate _ addr) =>
    match s.addPtrInsns addr with
    | none => none
    | some adds => some { s with indirectSeq := s.indirectSeq ++ [⟨k, adds⟩] }
  | some (.load _ _) => some s
  | some (.other [dst] _) => some (follow s r dst)
  | some (.other _ _) => none

def visit (s : State) (r : Register) : Option State :=
  (dag.regUse r).foldlM (visitUse dag arg r) s

/-- The loop, for at most `n` rounds. -/
def run : ℕ → State → Option State
  | 0, _ => none
  | n + 1, s =>
    match s.derivedRegs[s.i]? with
    | none => some s
    | some r => (visit dag arg s r).bind fun s => run n { s with i := s.i + 1 }

def start : State := ⟨0, [arg], fun _ => none, []⟩

/-! ### What is asked for -/

/-- A register that is computed from another, by an instruction that is not a load. -/
def Computed (a b : Register) : Prop :=
  ∃ k ∈ dag.regUse a, ∃ insn, dag.insns[k]? = some insn ∧ b ∈ insn.dst ∧
    (∀ values addr, insn ≠ .loadPrivate values addr) ∧ ∀ values src, insn ≠ .load values src

/-- A private load whose address derives from the argument. -/
def DerivedLoad (k : ℕ) : Prop :=
  ∃ r, Relation.ReflTransGen (Computed dag) arg r ∧ k ∈ dag.regUse r ∧
    ∃ values addr, dag.insns[k]? = some (.loadPrivate values addr)

/-! ### The condition -/

/-- The register that a use appends. -/
def pushed (r : Register) (k : ℕ) : Option Register :=
  match dag.insns[k]? with
  | some (.add dst _ _) => some dst
  | some (.other [dst] _) => if r = arg then none else some dst
  | _ => none

def succ (r : Register) : List Register := (dag.regUse r).filterMap (pushed dag arg r)

/-- The register is reached by the scan. -/
def Reached (r : Register) : Prop := Relation.ReflTransGen (Edge (succ dag arg)) arg r

/-- No register that the scan reaches is reached from itself; what uses one has one destination or
is a load; and an address that derives from the argument derives from an addition to it. -/
structure Regular : Prop where
  acyclic : ∀ r, Reached dag arg r → ¬ Relation.TransGen (Edge (succ dag arg)) r r
  single : ∀ r, Reached dag arg r → ∀ k ∈ dag.regUse r, ∀ dst src,
    dag.insns[k]? = some (.other dst src) → dst.length = 1
  complete : ∀ r, Relation.ReflTransGen (Computed dag) arg r → ∀ k ∈ dag.regUse r,
    ∀ values addr, dag.insns[k]? = some (.loadPrivate values addr) →
      Relation.TransGen (Edge (succ dag arg)) arg r

/-! ### One use -/

variable {dag arg} {s s' : State} {r : Register} {k : ℕ}

/-- The registers that have additions are those behind the argument, and there are some only if the
argument has an ADD. -/
structure Inv (dag : FunctionDAG) (arg : Register) (s : State) : Prop where
  head : ∃ tail, s.derivedRegs = arg :: tail
  keys : ∀ x, s.addPtrInsns x ≠ none ↔ x ∈ s.derivedRegs.tail
  started : s.derivedRegs.tail ≠ [] →
    ∃ k ∈ dag.regUse arg, ∃ dst src0 src1, dag.insns[k]? = some (.add dst src0 src1)

theorem inv_start : Inv dag arg (start arg) :=
  ⟨⟨[], rfl⟩, fun _ => iff_of_false (fun h => h rfl) List.not_mem_nil, fun h => absurd rfl h⟩

/-- A register is appended. -/
theorem Inv.push (h : Inv dag arg s) {dst : Register} {adds : List ℕ}
    (hstart : ∃ k ∈ dag.regUse arg, ∃ dst src0 src1,
      dag.insns[k]? = some (.add dst src0 src1)) :
    Inv dag arg { s with
      addPtrInsns := Function.update s.addPtrInsns dst (some adds)
      derivedRegs := s.derivedRegs ++ [dst] } := by
  obtain ⟨tail, htail⟩ := h.head
  have hcons : s.derivedRegs ++ [dst] = arg :: (tail ++ [dst]) := by
    rw [htail]
    rfl
  refine ⟨⟨tail ++ [dst], hcons⟩, fun x => ?_, fun _ => hstart⟩
  have hold := h.keys x
  simp only [hcons, List.tail_cons, List.mem_append, List.mem_singleton]
  rw [htail, List.tail_cons] at hold
  by_cases hx : x = dst
  · rw [hx, Function.update_self]
    exact iff_of_true (Option.some_ne_none _) (.inr rfl)
  · rw [Function.update_of_ne hx, hold]
    exact ⟨.inl, fun h => h.resolve_right hx⟩

theorem follow_of_none {dst : Register} (h : s.addPtrInsns r = none) : follow s r dst = s := by
  rw [follow, h]

theorem follow_of_some {dst : Register} {adds : List ℕ} (h : s.addPtrInsns r = some adds) :
    follow s r dst =
      { s with
        addPtrInsns :=
          Function.update s.addPtrInsns dst (some ((s.addPtrInsns dst).getD [] ++ adds))
        derivedRegs := s.derivedRegs ++ [dst] } := by
  rw [follow, h]

/-- The use keeps the invariant and only appends. -/
structure Grows (dag : FunctionDAG) (arg : Register) (s s' : State) : Prop where
  inv : Inv dag arg s'
  prefixed : s.derivedRegs <+: s'.derivedRegs
  i : s'.i = s.i

theorem follow_grows (h : Inv dag arg s) (dst : Register) : Grows dag arg s (follow s r dst) := by
  cases hr : s.addPtrInsns r with
  | none =>
    rw [follow_of_none hr]
    exact ⟨h, List.prefix_rfl, rfl⟩
  | some adds =>
    rw [follow_of_some hr]
    have hmem : r ∈ s.derivedRegs.tail := (h.keys r).mp (hr ▸ Option.some_ne_none adds)
    exact ⟨h.push (h.started (List.ne_nil_of_mem hmem)), List.prefix_append _ _, rfl⟩

theorem visitUse_grows (h : Inv dag arg s) (hk : k ∈ dag.regUse r)
    (hv : visitUse dag arg r s k = some s') : Grows dag arg s s' := by
  rw [visitUse] at hv
  split at hv
  · cases hv
  · next dst src0 src1 hinsn =>
    split at hv
    · next hr =>
      split at hv
      · cases hv
      · cases hv
        exact ⟨h.push ⟨k, hr ▸ hk, dst, src0, src1, hinsn⟩, List.prefix_append _ _, rfl⟩
    · cases hv
      exact follow_grows h dst
  · split at hv
    · cases hv
    · cases hv
      exact ⟨⟨h.head, h.keys, h.started⟩, List.prefix_rfl, rfl⟩
  · cases hv
    exact ⟨h, List.prefix_rfl, rfl⟩
  · cases hv
    exact follow_grows h _
  · cases hv

theorem foldlM_grows {ks : List ℕ} (h : Inv dag arg s) (hks : ∀ k ∈ ks, k ∈ dag.regUse r)
    (hv : ks.foldlM (visitUse dag arg r) s = some s') : Grows dag arg s s' := by
  induction ks generalizing s with
  | nil =>
    cases hv
    exact ⟨h, List.prefix_rfl, rfl⟩
  | cons k ks ih =>
    obtain ⟨t, ht, hrest⟩ := Option.bind_eq_some_iff.mp hv
    have hone := visitUse_grows h (hks k List.mem_cons_self) ht
    have hmore := ih hone.inv (fun k' hk' => hks k' (List.mem_cons_of_mem k hk')) hrest
    exact ⟨hmore.inv, hone.prefixed.trans hmore.prefixed, hmore.i.trans hone.i⟩

theorem Grows.mem_tail (h : Grows dag arg s s') (hs : Inv dag arg s) {x : Register}
    (hx : x ∈ s.derivedRegs.tail) : x ∈ s'.derivedRegs.tail := by
  obtain ⟨tail, htail⟩ := hs.head
  obtain ⟨more, hmore⟩ := h.prefixed
  rw [htail] at hx hmore
  rw [← hmore]
  exact List.mem_append_left more hx

/-! ### Once the argument is a destination -/

/-- The ADD of the argument finds additions, and its assertion fails. -/
theorem visit_arg (h : Inv dag arg s) (harg : arg ∈ s.derivedRegs.tail) :
    visit dag arg s arg = none := by
  obtain ⟨k, hk, dst, src0, src1, hinsn⟩ := h.started (List.ne_nil_of_mem harg)
  obtain ⟨pre, post, hsplit⟩ := List.append_of_mem hk
  rw [visit, hsplit, List.foldlM_append]
  refine Option.bind_eq_none_iff.mpr fun t ht => ?_
  have hgrows : Grows dag arg s t := foldlM_grows h (fun k' hk' => by
    rw [hsplit]
    exact List.mem_append_left _ hk') ht
  obtain ⟨adds, hadds⟩ :=
    Option.ne_none_iff_exists'.mp ((hgrows.inv.keys arg).mpr (hgrows.mem_tail h harg))
  have hnone : visitUse dag arg arg t k = none := by
    simp only [visitUse, hinsn, if_true, hadds]
  rw [List.foldlM_cons, hnone]
  rfl

/-- The scan comes to the argument again, then. -/
theorem run_of_reached (n : ℕ) (h : Inv dag arg s) (harg : arg ∈ s.derivedRegs.tail)
    (hpending : arg ∈ s.derivedRegs.drop s.i) : run dag arg n s = none := by
  induction n generalizing s with
  | zero => rfl
  | succ n ih =>
    rw [run]
    cases hr : s.derivedRegs[s.i]? with
    | none =>
      rw [List.drop_eq_nil_of_le (List.getElem?_eq_none_iff.mp hr)] at hpending
      exact absurd hpending List.not_mem_nil
    | some r =>
      obtain ⟨hlt, hget⟩ := List.getElem?_eq_some_iff.mp hr
      rw [List.drop_eq_getElem_cons hlt, hget] at hpending
      refine Option.bind_eq_none_iff.mpr fun t ht => ?_
      rcases List.mem_cons.mp hpending with heq | hpending
      · rw [← heq, visit_arg h harg] at ht
        cases ht
      · have hgrows : Grows dag arg s t := foldlM_grows h (fun _ hk => hk) ht
        obtain ⟨more, hmore⟩ := hgrows.prefixed
        refine ih ⟨hgrows.inv.head, hgrows.inv.keys, hgrows.inv.started⟩ (hgrows.mem_tail h harg) ?_
        have hdrop : t.derivedRegs.drop (s.i + 1) = s.derivedRegs.drop (s.i + 1) ++ more := by
          rw [← hmore, List.drop_append_of_le_length (by omega)]
        rw [hgrows.i, hdrop]
        exact List.mem_append_left more hpending

/-! ### One round -/

/-- The use passes the assertions, as long as the argument is no destination. -/
structure GoodUse (dag : FunctionDAG) (arg r : Register) (k : ℕ) : Prop where
  single : ∀ dst src, dag.insns[k]? = some (.other dst src) → dst.length = 1
  notArg : ∀ values addr, dag.insns[k]? = some (.loadPrivate values addr) → r ≠ arg

def isLoadPrivate (dag : FunctionDAG) (k : ℕ) : Bool :=
  match dag.insns[k]? with
  | some (.loadPrivate _ _) => true
  | _ => false

def State.loads (s : State) : List ℕ := s.indirectSeq.map IndirectLoad.load

theorem visitUse_good (h : Inv dag arg s) (hk : k ∈ dag.regUse r)
    (hr : r = arg ∨ r ∈ s.derivedRegs.tail) (harg : arg ∉ s.derivedRegs.tail)
    (hgood : GoodUse dag arg r k) : ∃ s', visitUse dag arg r s k = some s' ∧
      s'.derivedRegs = s.derivedRegs ++ (pushed dag arg r k).toList ∧
      s'.loads = s.loads ++ [k].filter (isLoadPrivate dag) := by
  obtain ⟨insn, hinsn, hsrc⟩ := dag.src_of_mem r k hk
  have hfollow : ∀ dst, r ≠ arg → ∃ adds, s.addPtrInsns r = some adds ∧
      (follow s r dst).derivedRegs = s.derivedRegs ++ [dst] ∧
      (follow s r dst).loads = s.loads := fun dst hne => by
    obtain ⟨adds, hadds⟩ :=
      Option.ne_none_iff_exists'.mp ((h.keys r).mpr (hr.resolve_left hne))
    rw [follow_of_some hadds]
    exact ⟨adds, hadds, rfl, rfl⟩
  have hnokey : s.addPtrInsns arg = none := by
    by_contra hne
    exact harg ((h.keys arg).mp hne)
  have hfilter : isLoadPrivate dag k = false → [k].filter (isLoadPrivate dag) = [] := fun hno => by
    rw [List.filter_cons_of_neg (by rw [hno]; exact Bool.false_ne_true), List.filter_nil]
  cases insn with
  | add dst src0 src1 =>
    rw [hfilter (by rw [isLoadPrivate, hinsn]), List.append_nil, pushed, hinsn]
    by_cases hra : r = arg
    · subst hra
      simp only [visitUse, hinsn, if_true, hnokey]
      exact ⟨_, rfl, rfl, rfl⟩
    · obtain ⟨adds, hadds, hregs, hloads⟩ := hfollow dst hra
      simp only [visitUse, hinsn, if_neg hra]
      exact ⟨_, rfl, hregs, hloads⟩
  | loadPrivate values addr =>
    have hra := hgood.notArg values addr hinsn
    obtain rfl : r = addr := List.mem_singleton.mp hsrc
    obtain ⟨adds, hadds, -, -⟩ := hfollow 0 hra
    simp only [visitUse, hinsn, hadds]
    refine ⟨_, rfl, ?_, ?_⟩
    · rw [pushed, hinsn]
      exact (List.append_nil _).symm
    · rw [List.filter_cons_of_pos (by rw [isLoadPrivate, hinsn]), List.filter_nil, State.loads,
        List.map_append]
      rfl
  | load values src =>
    rw [hfilter (by rw [isLoadPrivate, hinsn]), List.append_nil, pushed, hinsn]
    simp only [visitUse, hinsn]
    exact ⟨s, rfl, (List.append_nil _).symm, rfl⟩
  | other dst src =>
    rw [hfilter (by rw [isLoadPrivate, hinsn]), List.append_nil, pushed, hinsn]
    obtain ⟨d, rfl⟩ := List.length_eq_one_iff.mp (hgood.single dst src hinsn)
    simp only [visitUse, hinsn]
    by_cases hra : r = arg
    · rw [if_pos hra, hra, follow_of_none hnokey]
      exact ⟨s, rfl, (List.append_nil _).symm, rfl⟩
    · rw [if_neg hra]
      obtain ⟨adds, hadds, hregs, hloads⟩ := hfollow d hra
      exact ⟨_, rfl, hregs, hloads⟩

theorem visitUse_bad (h : Inv dag arg s) (hk : k ∈ dag.regUse r)
    (harg : arg ∉ s.derivedRegs.tail) (hbad : ¬ GoodUse dag arg r k) :
    visitUse dag arg r s k = none := by
  obtain ⟨insn, hinsn, hsrc⟩ := dag.src_of_mem r k hk
  have hnokey : s.addPtrInsns arg = none := by
    by_contra hne
    exact harg ((h.keys arg).mp hne)
  cases insn with
  | add dst src0 src1 =>
    refine absurd ⟨fun _ _ h => ?_, fun _ _ h => ?_⟩ hbad
    · cases hinsn.symm.trans h
    · cases hinsn.symm.trans h
  | loadPrivate values addr =>
    obtain rfl : r = addr := List.mem_singleton.mp hsrc
    have hra : r = arg := by
      by_contra hne
      refine hbad ⟨fun _ _ h => ?_, fun _ _ _ => hne⟩
      cases hinsn.symm.trans h
    simp only [visitUse, hinsn, hra, hnokey]
  | load values src =>
    refine absurd ⟨fun _ _ h => ?_, fun _ _ h => ?_⟩ hbad
    · cases hinsn.symm.trans h
    · cases hinsn.symm.trans h
  | other dst src =>
    simp only [visitUse, hinsn]
    split
    · cases ‹some _ = none›
    · cases ‹some _ = some _›
    · cases ‹some _ = some _›
    · cases ‹some _ = some _›
    · next d _ heq =>
      cases heq
      refine absurd ⟨fun _ _ h => ?_, fun _ _ h => ?_⟩ hbad
      · cases hinsn.symm.trans h
        rfl
      · cases hinsn.symm.trans h
    · rfl

/-- All uses of the register pass the assertions, and none makes the argument a destination. -/
def GoodReg (dag : FunctionDAG) (arg r : Register) : Prop :=
  ∀ k ∈ dag.regUse r, GoodUse dag arg r k ∧ pushed dag arg r k ≠ some arg

/-- The registers still to be scanned. -/
def State.pending (s : State) : List Register := s.derivedRegs.drop s.i

theorem notMem_tail_append (h : Inv dag arg s) (harg : arg ∉ s.derivedRegs.tail)
    {more : List Register} (hregs : s'.derivedRegs = s.derivedRegs ++ more) (hmore : arg ∉ more) :
    arg ∉ s'.derivedRegs.tail := by
  obtain ⟨tail, htail⟩ := h.head
  rw [htail] at harg hregs
  rw [hregs]
  exact fun hmem => (List.mem_append.mp hmem).elim harg hmore

section Round

variable {ks : List ℕ}

theorem foldlM_good (h : Inv dag arg s) (hks : ∀ k ∈ ks, k ∈ dag.regUse r)
    (hr : r = arg ∨ r ∈ s.derivedRegs.tail) (harg : arg ∉ s.derivedRegs.tail)
    (hgood : ∀ k ∈ ks, GoodUse dag arg r k ∧ pushed dag arg r k ≠ some arg) :
    ∃ s', ks.foldlM (visitUse dag arg r) s = some s' ∧
      s'.derivedRegs = s.derivedRegs ++ ks.filterMap (pushed dag arg r) ∧
      s'.loads = s.loads ++ ks.filter (isLoadPrivate dag) := by
  induction ks generalizing s with
  | nil => exact ⟨s, rfl, (List.append_nil _).symm, (List.append_nil _).symm⟩
  | cons k ks ih =>
    have hmem := hks k List.mem_cons_self
    obtain ⟨huse, hne⟩ := hgood k List.mem_cons_self
    obtain ⟨t, ht, hregs, hloads⟩ := visitUse_good h hmem hr harg huse
    have hgrows := visitUse_grows h hmem ht
    have harg' : arg ∉ t.derivedRegs.tail :=
      notMem_tail_append h harg hregs fun hx => hne (Option.mem_toList.mp hx)
    obtain ⟨s', hs', hregs', hloads'⟩ := ih hgrows.inv
      (fun k' hk' => hks k' (List.mem_cons_of_mem k hk')) (hr.imp_right (hgrows.mem_tail h)) harg'
      fun k' hk' => hgood k' (List.mem_cons_of_mem k hk')
    refine ⟨s', ?_, ?_, ?_⟩
    · rw [List.foldlM_cons, ht]
      exact hs'
    · rw [hregs', hregs, List.append_assoc]
      congr 1
      cases hp : pushed dag arg r k with
      | none => rw [List.filterMap_cons_none hp, Option.toList_none, List.nil_append]
      | some d => rw [List.filterMap_cons_some hp, Option.toList_some, List.singleton_append]
    · rw [hloads', hloads, List.append_assoc, ← List.filter_append, List.singleton_append]

/-- All uses are good, or the argument has been appended. -/
theorem foldlM_some (h : Inv dag arg s) (hks : ∀ k ∈ ks, k ∈ dag.regUse r)
    (hr : r = arg ∨ r ∈ s.derivedRegs.tail) (harg : arg ∉ s.derivedRegs.tail)
    (hv : ks.foldlM (visitUse dag arg r) s = some s') :
    (∀ k ∈ ks, GoodUse dag arg r k ∧ pushed dag arg r k ≠ some arg) ∨
      arg ∈ s'.derivedRegs.drop s.derivedRegs.length := by
  induction ks generalizing s with
  | nil => exact .inl fun k hk => absurd hk List.not_mem_nil
  | cons k ks ih =>
    have hmem := hks k List.mem_cons_self
    have hks' : ∀ k' ∈ ks, k' ∈ dag.regUse r := fun k' hk' => hks k' (List.mem_cons_of_mem k hk')
    obtain ⟨t, ht, hrest⟩ := Option.bind_eq_some_iff.mp hv
    have huse : GoodUse dag arg r k := by
      by_contra hbad
      rw [visitUse_bad h hmem harg hbad] at ht
      cases ht
    have hgrows := visitUse_grows h hmem ht
    obtain ⟨t', ht', hregs, -⟩ := visitUse_good h hmem hr harg huse
    obtain rfl := Option.some.inj (ht.symm.trans ht')
    obtain ⟨more, hmore⟩ := (foldlM_grows hgrows.inv hks' hrest).prefixed
    have hdrop : s'.derivedRegs.drop s.derivedRegs.length =
        (pushed dag arg r k).toList ++ more := by
      rw [← hmore, hregs, List.append_assoc, List.drop_left]
    by_cases hp : pushed dag arg r k = some arg
    · rw [hdrop, hp]
      exact .inr List.mem_cons_self
    · have harg' : arg ∉ t.derivedRegs.tail :=
        notMem_tail_append h harg hregs fun hx => hp (Option.mem_toList.mp hx)
      refine (ih hgrows.inv hks' (hr.imp_right (hgrows.mem_tail h)) harg' hrest).imp
        (fun hall k' hk' => ?_) fun hreached => ?_
      · rcases List.mem_cons.mp hk' with rfl | hk'
        · exact ⟨huse, hp⟩
        · exact hall k' hk'
      · rw [← hmore, List.drop_left] at hreached
        rw [hdrop]
        exact List.mem_append_right _ hreached

end Round

/-! ### The scan -/

theorem pending_cons (h : Inv dag arg s) (hr : s.derivedRegs[s.i]? = some r) :
    s.pending = r :: s.derivedRegs.drop (s.i + 1) ∧ (r = arg ∨ r ∈ s.derivedRegs.tail) := by
  obtain ⟨hlt, hget⟩ := List.getElem?_eq_some_iff.mp hr
  refine ⟨by rw [State.pending, List.drop_eq_getElem_cons hlt, hget], ?_⟩
  obtain ⟨tail, htail⟩ := h.head
  have hmem := List.mem_of_getElem? hr
  rw [htail] at hmem ⊢
  exact List.mem_cons.mp hmem

/-- After a round, the successors of the register have been appended. -/
theorem pending_advance (h : Inv dag arg s) (hr : s.derivedRegs[s.i]? = some r)
    (hregs : s'.derivedRegs = s.derivedRegs ++ succ dag arg r) (hi : s'.i = s.i) :
    State.pending { s' with i := s'.i + 1 } = advance (succ dag arg) s.pending := by
  have hlt := (List.getElem?_eq_some_iff.mp hr).1
  rw [(pending_cons h hr).1, State.pending]
  simp only [hi, hregs, advance]
  exact List.drop_append_of_le_length (by omega)

theorem exists_run (k : ℕ) (h : Inv dag arg s) (harg : arg ∉ s.derivedRegs.tail)
    (hempty : (advance (succ dag arg))^[k] s.pending = [])
    (hgood : ∀ p ∈ s.pending, ∀ y, Relation.ReflTransGen (Edge (succ dag arg)) p y →
      GoodReg dag arg y) : ∃ s', run dag arg (k + 1) s = some s' := by
  induction k generalizing s with
  | zero =>
    have hnil : s.pending = [] := hempty
    have hnone : s.derivedRegs[s.i]? = none :=
      List.getElem?_eq_none_iff.mpr (List.drop_eq_nil_iff.mp hnil)
    exact ⟨s, by rw [run, hnone]⟩
  | succ k ih =>
    cases hr : s.derivedRegs[s.i]? with
    | none => exact ⟨s, by rw [run, hr]⟩
    | some r =>
      obtain ⟨hcons, hrmem⟩ := pending_cons h hr
      have hrgood := hgood r (hcons ▸ List.mem_cons_self) r .refl
      obtain ⟨t, ht, hregs, -⟩ := foldlM_good h (fun _ hk => hk) hrmem harg hrgood
      have hgrows : Grows dag arg s t := foldlM_grows h (fun _ hk => hk) ht
      have hpending := pending_advance h hr hregs hgrows.i
      have harg' : arg ∉ t.derivedRegs.tail := notMem_tail_append h harg hregs fun hmem => by
        obtain ⟨k', hk', heq⟩ := List.mem_filterMap.mp hmem
        exact (hrgood k' hk').2 heq
      obtain ⟨s', hs'⟩ := ih (s := { t with i := t.i + 1 })
        ⟨hgrows.inv.head, hgrows.inv.keys, hgrows.inv.started⟩ harg'
        (by rw [hpending]; exact hempty) fun p hp y hpy => by
          rw [hpending, hcons] at hp
          rcases List.mem_append.mp hp with hp | hp
          · exact hgood p (hcons ▸ List.mem_cons_of_mem r hp) y hpy
          · exact hgood r (hcons ▸ List.mem_cons_self) y (.head hp hpy)
      refine ⟨s', ?_⟩
      rw [run, hr]
      exact Option.bind_eq_some_iff.mpr ⟨t, ht, hs'⟩

/-- A scan that ends has met good registers only, and collected their loads. -/
theorem run_some (n : ℕ) (h : Inv dag arg s) (harg : arg ∉ s.derivedRegs.tail)
    (hrun : run dag arg n s = some s') :
    (∃ k, (advance (succ dag arg))^[k] s.pending = []) ∧
      (∀ p ∈ s.pending, ∀ y, Relation.ReflTransGen (Edge (succ dag arg)) p y →
        GoodReg dag arg y) ∧
      ∀ k, k ∈ s'.loads ↔ k ∈ s.loads ∨ ∃ p ∈ s.pending, ∃ y,
        Relation.ReflTransGen (Edge (succ dag arg)) p y ∧ k ∈ dag.regUse y ∧
          isLoadPrivate dag k := by
  induction n generalizing s with
  | zero => cases hrun
  | succ n ih =>
    rw [run] at hrun
    cases hr : s.derivedRegs[s.i]? with
    | none =>
      rw [hr] at hrun
      obtain rfl : s = s' := Option.some.inj hrun
      have hnil : s.pending = [] := List.drop_eq_nil_iff.mpr (List.getElem?_eq_none_iff.mp hr)
      rw [hnil]
      refine ⟨⟨0, rfl⟩, fun p hp => absurd hp List.not_mem_nil, fun k => ⟨.inl, ?_⟩⟩
      rintro (hk | ⟨p, hp, -⟩)
      · exact hk
      · exact absurd hp List.not_mem_nil
    | some r =>
      rw [hr] at hrun
      obtain ⟨t, ht, hrun⟩ := Option.bind_eq_some_iff.mp hrun
      obtain ⟨hcons, hrmem⟩ := pending_cons h hr
      have hgrows : Grows dag arg s t := foldlM_grows h (fun _ hk => hk) ht
      have hinv : Inv dag arg { t with i := t.i + 1 } :=
        ⟨hgrows.inv.head, hgrows.inv.keys, hgrows.inv.started⟩
      rcases foldlM_some h (fun _ hk => hk) hrmem harg ht with hrgood | hreached
      · obtain ⟨t', ht', hregs, hloads⟩ := foldlM_good h (fun _ hk => hk) hrmem harg hrgood
        obtain rfl := Option.some.inj (ht.symm.trans ht')
        have harg' : arg ∉ t.derivedRegs.tail := notMem_tail_append h harg hregs fun hmem => by
          obtain ⟨k', hk', heq⟩ := List.mem_filterMap.mp hmem
          exact (hrgood k' hk').2 heq
        obtain ⟨⟨k, hk⟩, hgood, hcollected⟩ := ih hinv harg' hrun
        have hpending := pending_advance h hr hregs hgrows.i
        rw [hpending] at hk hgood hcollected
        rw [hcons] at hk hgood hcollected ⊢
        refine ⟨⟨k + 1, hk⟩, fun p hp y hpy => ?_, fun k' => ?_⟩
        · rcases List.mem_cons.mp hp with rfl | hp
          · rcases Relation.ReflTransGen.cases_head hpy with rfl | ⟨c, hpc, hcy⟩
            · exact hrgood
            · exact hgood c (List.mem_append_right _ hpc) y hcy
          · exact hgood p (List.mem_append_left _ hp) y hpy
        · have hloads' : State.loads { t with i := t.i + 1 } =
              s.loads ++ (dag.regUse r).filter (isLoadPrivate dag) := hloads
          rw [hcollected, hloads', List.mem_append, or_assoc]
          refine or_congr_right ?_
          constructor
          · rintro (hmem | ⟨p, hp, y, hpy, hload⟩)
            · obtain ⟨huse, hload⟩ := List.mem_filter.mp hmem
              exact ⟨r, List.mem_cons_self, r, .refl, huse, hload⟩
            · rcases List.mem_append.mp hp with hp | hp
              · exact ⟨p, List.mem_cons_of_mem r hp, y, hpy, hload⟩
              · exact ⟨r, List.mem_cons_self, y, .head hp hpy, hload⟩
          · rintro ⟨p, hp, y, hpy, huse, hload⟩
            rcases List.mem_cons.mp hp with rfl | hp
            · rcases Relation.ReflTransGen.cases_head hpy with rfl | ⟨c, hpc, hcy⟩
              · exact .inl (List.mem_filter.mpr ⟨huse, hload⟩)
              · exact .inr ⟨c, List.mem_append_right _ hpc, y, hcy, huse, hload⟩
            · exact .inr ⟨p, List.mem_append_left _ hp, y, hpy, huse, hload⟩
      · -- the argument has become a destination
        have htail : arg ∈ t.derivedRegs.tail := by
          obtain ⟨tail, htail⟩ := h.head
          obtain ⟨more, hmore⟩ := hgrows.prefixed
          rw [← hmore, List.drop_left] at hreached
          rw [← hmore, htail]
          exact List.mem_append_right tail hreached
        have hdrop : arg ∈ t.derivedRegs.drop (t.i + 1) := by
          have hlt := (List.getElem?_eq_some_iff.mp hr).1
          have hle : t.i + 1 ≤ s.derivedRegs.length := by
            rw [hgrows.i]
            exact hlt
          obtain ⟨j, hj⟩ := Nat.exists_eq_add_of_le hle
          rw [hj, ← List.drop_drop] at hreached
          exact List.mem_of_mem_drop hreached
        rw [run_of_reached n hinv htail hdrop] at hrun
        cases hrun

/-- When the scan of the argument ends, and what it has collected then. -/
theorem exists_run_iff : (∃ n s', run dag arg n (start arg) = some s') ↔
    Ends (succ dag arg) arg ∧ ∀ r, Reached dag arg r → GoodReg dag arg r := by
  have harg : arg ∉ (start arg).derivedRegs.tail := List.not_mem_nil
  have hpending : (start arg).pending = [arg] := rfl
  constructor
  · rintro ⟨n, s', hrun⟩
    obtain ⟨hempty, hgood, -⟩ := run_some n inv_start harg hrun
    rw [hpending] at hempty hgood
    exact ⟨exists_empty_iff.mp hempty arg (List.mem_singleton_self arg),
      fun r hr => hgood arg (List.mem_singleton_self arg) r hr⟩
  · rintro ⟨hends, hgood⟩
    have hall : ∀ a ∈ [arg], Ends (succ dag arg) a := fun a ha => List.mem_singleton.mp ha ▸ hends
    obtain ⟨k, hk⟩ := exists_empty_iff.mpr hall
    obtain ⟨s', hs'⟩ := exists_run k inv_start harg hk fun p hp y hpy =>
      hgood y (List.mem_singleton.mp hp ▸ hpy)
    exact ⟨k + 1, s', hs'⟩

/-! ### The result -/

theorem isLoadPrivate_iff : isLoadPrivate dag k = true ↔
    ∃ values addr, dag.insns[k]? = some (.loadPrivate values addr) := by
  rw [isLoadPrivate]
  split
  · next values addr heq => exact iff_of_true rfl ⟨values, addr, heq⟩
  · next hno =>
    refine iff_of_false Bool.false_ne_true ?_
    rintro ⟨values, addr, heq⟩
    exact hno values addr heq

theorem mem_succ {b : Register} :
    Edge (succ dag arg) r b ↔ ∃ k ∈ dag.regUse r, pushed dag arg r k = some b :=
  List.mem_filterMap

/-- What the scan follows is computed. -/
theorem computed_of_edge {b : Register} (h : Edge (succ dag arg) r b) : Computed dag r b := by
  obtain ⟨k, hk, hp⟩ := mem_succ.mp h
  rw [pushed] at hp
  split at hp
  · next dst src0 src1 hinsn =>
    cases hp
    exact ⟨k, hk, _, hinsn, List.mem_singleton_self _, fun _ _ h => (by cases h),
      fun _ _ h => (by cases h)⟩
  · next dst src hinsn =>
    split at hp
    · cases hp
    · cases hp
      exact ⟨k, hk, _, hinsn, List.mem_singleton_self _, fun _ _ h => (by cases h),
        fun _ _ h => (by cases h)⟩
  · cases hp

theorem finite_edge : {b | ∃ a, Edge (succ dag arg) a b}.Finite := by
  refine (dag.insns.flatMap Insn.dst).finite_toSet.subset ?_
  rintro b ⟨a, hab⟩
  obtain ⟨k, -, insn, hinsn, hb, -, -⟩ := computed_of_edge hab
  exact List.mem_flatMap.mpr ⟨insn, List.mem_of_getElem? hinsn, hb⟩

/-- The scan ends and collects the private loads whose address derives from the argument iff no
register that it reaches is reached from itself, each use of one has one destination or is a load,
and each of these addresses derives from an ADD of the argument. -/
theorem lowerIndirectRead_iff (dag : FunctionDAG) (arg : Register) :
    (∃ n s', run dag arg n (start arg) = some s' ∧ ∀ k, k ∈ s'.loads ↔ DerivedLoad dag arg k) ↔
      Regular dag arg := by
  have hcollected : ∀ n s', run dag arg n (start arg) = some s' → ∀ k, k ∈ s'.loads ↔
      ∃ y, Reached dag arg y ∧ k ∈ dag.regUse y ∧ isLoadPrivate dag k := fun n s' hrun k => by
    obtain ⟨-, -, hloads⟩ := run_some n inv_start List.not_mem_nil hrun
    rw [hloads]
    constructor
    · rintro (hk | ⟨p, hp, y, hpy, hy⟩)
      · exact absurd hk List.not_mem_nil
      · exact ⟨y, List.mem_singleton.mp hp ▸ hpy, hy⟩
    · rintro ⟨y, hy⟩
      exact .inr ⟨arg, List.mem_singleton_self arg, y, hy⟩
  have haddr : ∀ r k values addr, k ∈ dag.regUse r →
      dag.insns[k]? = some (.loadPrivate values addr) → r = addr :=
      fun r k values addr hk hinsn => by
    obtain ⟨insn, hinsn', hsrc⟩ := dag.src_of_mem r k hk
    obtain rfl := Option.some.inj (hinsn.symm.trans hinsn')
    exact List.mem_singleton.mp hsrc
  have hderived : ∀ y, Reached dag arg y → Relation.ReflTransGen (Computed dag) arg y := fun y hy =>
    Relation.ReflTransGen.mono (fun _ _ hab => computed_of_edge hab) arg y hy
  constructor
  · rintro ⟨n, s', hrun, hexact⟩
    obtain ⟨hends, hgood⟩ := exists_run_iff.mp ⟨n, s', hrun⟩
    refine ⟨fun r hr => (ends_iff_acyclic finite_edge).mp hends r hr,
      fun r hr k hk dst src hinsn => (hgood r hr k hk).1.single dst src hinsn,
      fun r hr k hk values addr hinsn => ?_⟩
    obtain ⟨y, hy, hky, -⟩ := (hcollected n s' hrun k).mp
      ((hexact k).mpr ⟨r, hr, hk, values, addr, hinsn⟩)
    obtain rfl : y = r :=
      (haddr y k values addr hky hinsn).trans (haddr r k values addr hk hinsn).symm
    rcases Relation.reflTransGen_iff_eq_or_transGen.mp hy with rfl | htrans
    · exact absurd rfl ((hgood y hy k hky).1.notArg values addr hinsn)
    · exact htrans
  · intro hreg
    have hgood : ∀ r, Reached dag arg r → GoodReg dag arg r := fun r hr k hk => by
      refine ⟨⟨fun dst src hinsn => hreg.single r hr k hk dst src hinsn,
        fun values addr hinsn heq => ?_⟩, fun hp => ?_⟩
      · exact hreg.acyclic arg .refl (hreg.complete arg .refl k (heq ▸ hk) values addr hinsn)
      · exact hreg.acyclic arg .refl (.tail' hr (mem_succ.mpr ⟨k, hk, hp⟩))
    obtain ⟨n, s', hrun⟩ := exists_run_iff.mpr
      ⟨(ends_iff_acyclic finite_edge).mpr hreg.acyclic, hgood⟩
    refine ⟨n, s', hrun, fun k => ?_⟩
    rw [hcollected n s' hrun]
    constructor
    · rintro ⟨y, hy, hk, hload⟩
      exact ⟨y, hderived y hy, hk, isLoadPrivate_iff.mp hload⟩
    · rintro ⟨r, hr, hk, values, addr, hinsn⟩
      exact ⟨r, (hreg.complete r hr k hk values addr hinsn).to_reflTransGen, hk,
        isLoadPrivate_iff.mpr ⟨values, addr, hinsn⟩⟩

/-- Every use of a register, in the order of the instructions. -/
def ofInsns (insns : List Insn) : FunctionDAG where
  insns := insns
  regUse r := (List.range insns.length).filter fun k => r ∈ (insns[k]?.map Insn.src).getD []
  src_of_mem r k hk := by
    have hsrc := of_decide_eq_true (List.mem_filter.mp hk).2
    cases hinsn : insns[k]? with
    | none =>
      rw [hinsn] at hsrc
      exact absurd hsrc List.not_mem_nil
    | some insn =>
      rw [hinsn] at hsrc
      exact ⟨insn, rfl, hsrc⟩

/-- A pointer into the argument, register 0, that is moved on in a loop: register 2 is a copy of 1
and of 3, and 3 is 2 and an offset. -/
def loopDag : FunctionDAG := ofInsns
  [.add 1 0 9, .other [2] [1], .loadPrivate [5] 2, .add 3 2 8, .other [2] [3]]

theorem not_lowerIndirectRead_loop : ¬ ∃ n s', run loopDag 0 n (start 0) = some s' ∧
    ∀ k, k ∈ s'.loads ↔ DerivedLoad loopDag 0 k := by
  rintro ⟨n, s', hrun, -⟩
  have hends := (exists_run_iff.mp ⟨n, s', hrun⟩).1
  have hpath : Relation.ReflTransGen (Edge (succ loopDag 0)) 0 2 :=
    .tail (.single (b := 1) (by decide : (1 : Register) ∈ succ loopDag 0 0))
      (by decide : (2 : Register) ∈ succ loopDag 0 1)
  have hcycle : Relation.TransGen (Edge (succ loopDag 0)) 2 2 :=
    .tail (.single (b := 3) (by decide : (3 : Register) ∈ succ loopDag 0 2))
      (by decide : (2 : Register) ∈ succ loopDag 0 3)
  exact (hends.reached hpath).not_cycle hcycle

end IndirectRead

end Ir
