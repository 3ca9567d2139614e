/-
The DAG that `buildDAG` makes.

`Depends nodes a b` says that `b` is a child of `a`.  The tables built on the way keep
`Dag`: a child comes later in the block, is listed once, and its `refNum` counts its
parents.

* `WritersTracked.step` — an instruction depends on the last writers of what it reads
  and writes;
* `ReadersTracked.step` — the next writers of what an instruction reads depend on it;
* `makeBarrier_gains` — a barrier depends on all before it, and all after it on it;
* `buildTracker_built` — the three together, for the DAG of a block, which has no others;
* `Built.path_iff` — its paths are the chains of instructions that are tied together.
-/
import Beignet.Backend.Scheduling
import Beignet.Lib.Lists
import Beignet.Lib.Precedence

open Precedence

namespace Backend

section Dag

variable {n : ℕ}

/-- `b` is a child of `a`. -/
def Depends (nodes : Fin n → ScheduleDAGNode n) (a b : Fin n) : Prop :=
  b ∈ (nodes a).children.map ScheduleListNode.node

instance (nodes : Fin n → ScheduleDAGNode n) (a b : Fin n) : Decidable (Depends nodes a b) :=
  inferInstanceAs (Decidable (_ ∈ _))

/-- The edges lead forward and are counted. -/
structure Dag (nodes : Fin n → ScheduleDAGNode n) : Prop where
  lt : ∀ {a b}, Depends nodes a b → a < b
  nodup : ∀ a, ((nodes a).children.map ScheduleListNode.node).Nodup
  refNum : ∀ b, (nodes b).refNum = (Finset.univ.filter fun a => Depends nodes a b).card
  preRetired : ∀ a, (nodes a).preRetired = false

theorem Dag.init : Dag (fun _ : Fin n => ({} : ScheduleDAGNode n)) where
  lt h := by simp [Depends] at h
  nodup _ := by simp
  refNum _ := by simp [Depends]
  preRetired _ := rfl

theorem DependencyTracker.dependsOn_iff {t : DependencyTracker n} {a b : Fin n} :
    t.dependsOn b a = true ↔ Depends t.insnNodes a b := by
  simp [dependsOn, Depends]

end Dag

namespace SelectionScheduler

variable {S : SelectionScheduler}

theorem indices_getFlag (insn : SelectionInstruction) :
    S.indices insn.getFlag = [S.getIndex insn.getFlag] := by
  have hignore : ignoreDependency insn.getFlag = false := by
    unfold SelectionInstruction.getFlag
    split
    · -- bit 4 of the number says that it is a flag
      have hbit : ((GEN_ARF_FLAG ||| insn.state.flag) &&& 0xf0).testBit 4 = true := by
        simp [GEN_ARF_FLAG, Nat.testBit_and, Nat.testBit_or, show Nat.testBit 48 4 = true by decide,
          show Nat.testBit 240 4 = true by decide]
      have hne : (GEN_ARF_FLAG ||| insn.state.flag) &&& 0xf0 ≠ GEN_ARF_NULL := by
        intro heq
        rw [heq] at hbit
        simp [GEN_ARF_NULL] at hbit
      simp [ignoreDependency, GenRegister.flag, hne]
    · rfl
  have hnarrow : (insn.getFlag.isdf || insn.getFlag.isint64 || insn.getFlag.is_unpacked_long) =
      false := by
    unfold SelectionInstruction.getFlag
    split <;> rfl
  simp [indices, hignore, hnarrow]

theorem indices_acc : S.indices .acc = [S.getIndex .acc] := by
  have hignore : ignoreDependency .acc = false := by decide
  have hnarrow : (GenRegister.acc.isdf || GenRegister.acc.isint64 ||
      GenRegister.acc.is_unpacked_long) = false := by decide
  simp [indices, hignore, hnarrow]

/-- Whatever `updateWrites` records, the first pass has looked up before. -/
theorem mem_of_mem_updateIndices {insn : SelectionInstruction} {k : ℕ}
    (h : k ∈ S.updateIndices insn) : k ∈ S.readIndices insn ∨ k ∈ S.writeIndices insn := by
  unfold updateIndices at h
  unfold writeIndices
  rw [indices_getFlag, indices_acc]
  simp only [List.mem_append] at h ⊢
  obtain h | h := h
  · exact .inr h
  · -- barriers, fences and waits look memory up as readers
    left
    split at h
    · next hop =>
      unfold readIndices
      simp only [List.mem_append]
      right
      simp only [Bool.or_eq_true, decide_eq_true_eq] at hop ⊢
      rw [if_pos (.inl hop)]
      exact h
    · simp at h

end SelectionScheduler

section Build

variable {S : SelectionScheduler} {bb : List SelectionInstruction}
  {t : DependencyTracker bb.length}

/-- What adding dependencies does: the DAG stays one, gains `edge` and no more, and loses
nothing. -/
structure Gains (t t' : DependencyTracker bb.length)
    (edge : Fin bb.length → Fin bb.length → Prop) : Prop where
  dag : Dag t'.insnNodes
  old : ∀ {a b}, Depends t.insnNodes a b → Depends t'.insnNodes a b
  new : ∀ {a b}, edge a b → Depends t'.insnNodes a b
  only : ∀ {a b}, Depends t'.insnNodes a b → Depends t.insnNodes a b ∨ edge a b
  nodes : t'.nodes = t.nodes

theorem Gains.trans {t1 t2 t3 : DependencyTracker bb.length}
    {e1 e2 : Fin bb.length → Fin bb.length → Prop} (h1 : Gains t1 t2 e1) (h2 : Gains t2 t3 e2) :
    Gains t1 t3 fun a b => e1 a b ∨ e2 a b where
  dag := h2.dag
  old h := h2.old (h1.old h)
  new h := h.elim (fun h => h2.old (h1.new h)) h2.new
  only h := (h2.only h).elim (fun h => (h1.only h).imp_right .inl) fun h => .inr (.inr h)
  nodes := h2.nodes.trans h1.nodes

@[simp] theorem addDependency_nodes (node0 node1 : Option (Fin bb.length)) (m : DepMode) :
    (t.addDependency bb node0 node1 m).nodes = t.nodes := by
  cases node0 with
  | none => rfl
  | some b =>
    cases node1 with
    | none => rfl
    | some a =>
      rw [DependencyTracker.addDependency]
      split <;> rfl

/-- The node table after `b` was made a child of `a`. -/
theorem addDependency_insnNodes {a b : Fin bb.length} (m : DepMode) (hab : a < b)
    (hdep : ¬ Depends t.insnNodes a b) :
    ∃ m', ∀ x,
      ((t.addDependency bb (some b) (some a) m).insnNodes x).children =
        (t.insnNodes x).children ++ (if x = a then [⟨b, m'⟩] else []) ∧
      ((t.addDependency bb (some b) (some a) m).insnNodes x).refNum =
        (t.insnNodes x).refNum + (if x = b then 1 else 0) ∧
      ((t.addDependency bb (some b) (some a) m).insnNodes x).preRetired =
        (t.insnNodes x).preRetired := by
  have hdep' : t.dependsOn b a = false := by
    rw [← Bool.not_eq_true, DependencyTracker.dependsOn_iff]
    exact hdep
  refine ⟨if (bb.get a).isRead && m = .readAfterWrite then .readAfterWriteMemory else m,
    fun x => ?_⟩
  simp only [DependencyTracker.addDependency, hdep', ne_eq, hab.ne', not_false_eq_true,
    decide_true, Bool.not_false, Bool.and_self, if_true]
  by_cases hxa : x = a
  · subst hxa
    simp [hab.ne]
  · by_cases hxb : x = b
    · subst hxb
      simp [hxa]
    · simp [hxa, hxb]

theorem addDependency_of_depends {a b : Fin bb.length} (m : DepMode)
    (hdep : Depends t.insnNodes a b) : t.addDependency bb (some b) (some a) m = t := by
  simp [DependencyTracker.addDependency, DependencyTracker.dependsOn_iff.mpr hdep]

theorem addDependency_gains {a b : Fin bb.length} (m : DepMode) (hd : Dag t.insnNodes)
    (hab : a < b) :
    Gains t (t.addDependency bb (some b) (some a) m) fun x y => x = a ∧ y = b := by
  by_cases hdep : Depends t.insnNodes a b
  · rw [addDependency_of_depends m hdep]
    refine ⟨hd, id, ?_, .inl, rfl⟩
    rintro x y ⟨rfl, rfl⟩
    exact hdep
  · obtain ⟨m', h⟩ := addDependency_insnNodes m hab hdep
    have hdepends : ∀ x y, Depends (t.addDependency bb (some b) (some a) m).insnNodes x y ↔
        Depends t.insnNodes x y ∨ x = a ∧ y = b := by
      intro x y
      unfold Depends
      rw [(h x).1]
      by_cases hx : x = a
      · simp [hx]
      · simp [hx]
    refine ⟨?_, ?_, ?_, (hdepends _ _).mp, ?_⟩
    · constructor
      · intro x y hxy
        obtain hxy | ⟨rfl, rfl⟩ := (hdepends x y).mp hxy
        · exact hd.lt hxy
        · exact hab
      · intro x
        rw [(h x).1]
        by_cases hx : x = a
        · subst hx
          have hnew := hd.nodup x
          simpa [List.nodup_append, hnew, Depends] using hdep
        · simpa [hx] using hd.nodup x
      · intro y
        rw [(h y).2.1, hd.refNum y]
        by_cases hy : y = b
        · -- `a` is a parent that was not counted yet
          subst hy
          have hinsert : (Finset.univ.filter fun x =>
              Depends (t.addDependency bb (some y) (some a) m).insnNodes x y) =
              insert a (Finset.univ.filter fun x => Depends t.insnNodes x y) := by
            ext x
            simp [hdepends, or_comm]
          rw [hinsert, Finset.card_insert_of_notMem (by simpa using hdep), if_pos rfl]
        · simp [hdepends, hy]
      · intro x
        rw [(h x).2.2]
        exact hd.preRetired x
    · intro x y hxy
      exact (hdepends x y).mpr (.inl hxy)
    · intro x y hxy
      exact (hdepends x y).mpr (.inr hxy)
    · exact addDependency_nodes ..

/-- The same when a node may be missing. -/
theorem addDependency_gains_option {node0 node1 : Option (Fin bb.length)} (m : DepMode)
    (hd : Dag t.insnNodes) (hlt : ∀ {a b}, node1 = some a → node0 = some b → a < b) :
    Gains t (t.addDependency bb node0 node1 m) fun a b => node1 = some a ∧ node0 = some b := by
  cases node0 with
  | none => exact ⟨hd, id, fun h => by simp at h, .inl, rfl⟩
  | some b =>
    cases node1 with
    | none => exact ⟨hd, id, fun h => by simp at h, .inl, rfl⟩
    | some a =>
      have h := addDependency_gains m hd (hlt rfl rfl : a < b)
      exact ⟨h.dag, h.old, fun ⟨hx, hy⟩ => h.new ⟨(Option.some.inj hx).symm,
        (Option.some.inj hy).symm⟩, fun hxy => (h.only hxy).imp_right fun ⟨hx, hy⟩ =>
          ⟨congrArg some hx.symm, congrArg some hy.symm⟩, h.nodes⟩

/-- A loop that adds one dependency in each round; what it links may depend on the table
of writers, which no round changes. -/
theorem foldl_addDependency_gains {κ : Type*} (m : DepMode)
    (node0 node1 : (ℕ → Option (Fin bb.length)) → κ → Option (Fin bb.length)) (l : List κ)
    (hlt : ∀ k ∈ l, ∀ {a b}, node1 t.nodes k = some a → node0 t.nodes k = some b → a < b)
    (hd : Dag t.insnNodes) :
    Gains t (l.foldl (fun t k => t.addDependency bb (node0 t.nodes k) (node1 t.nodes k) m) t)
      fun a b => ∃ k ∈ l, node1 t.nodes k = some a ∧ node0 t.nodes k = some b := by
  induction l generalizing t with
  | nil => exact ⟨hd, id, fun h => by simp at h, .inl, rfl⟩
  | cons k l ih =>
    have hk := addDependency_gains_option m hd (hlt k List.mem_cons_self)
    have hrest := ih (t := t.addDependency bb (node0 t.nodes k) (node1 t.nodes k) m)
      (by rw [hk.nodes]; exact fun k' hk' => hlt k' (List.mem_cons_of_mem _ hk')) hk.dag
    refine ⟨hrest.dag, fun h => hrest.old (hk.old h), ?_, fun hab => ?_,
      hrest.nodes.trans hk.nodes⟩
    · rintro a b ⟨k', hk', hab⟩
      obtain rfl | hk' := List.mem_cons.mp hk'
      · exact hrest.old (hk.new hab)
      · exact hrest.new ⟨k', hk', by rwa [hk.nodes]⟩
    · obtain hab | ⟨k', hk', hab⟩ := hrest.only hab
      · exact (hk.only hab).imp_right fun hab => ⟨k, List.mem_cons_self, hab⟩
      · exact .inr ⟨k', List.mem_cons_of_mem _ hk', by rwa [hk.nodes] at hab⟩

/-! ### The two passes -/

theorem addWriters_gains {node : Fin bb.length} (indices : List ℕ) (m : DepMode)
    (hd : Dag t.insnNodes) (hlt : ∀ {k a}, t.nodes k = some a → a < node) :
    Gains t (t.addWriters bb node indices m)
      fun a b => b = node ∧ ∃ k ∈ indices, t.nodes k = some a := by
  have h := foldl_addDependency_gains m (fun _ _ => some node) (fun ν k => ν k) indices
    (fun k _ a b ha hb => Option.some.inj hb ▸ hlt ha) hd
  refine ⟨h.dag, h.old, ?_, fun hab => (h.only hab).imp_right fun ⟨k, hk, ha, hb⟩ =>
    ⟨(Option.some.inj hb).symm, k, hk, ha⟩, h.nodes⟩
  rintro a b ⟨rfl, k, hk, ha⟩
  exact h.new ⟨k, hk, ha, rfl⟩

theorem addToWriters_gains {node : Fin bb.length} (indices : List ℕ) (m : DepMode)
    (hd : Dag t.insnNodes) (hlt : ∀ {k b}, t.nodes k = some b → node < b) :
    Gains t (t.addToWriters bb node indices m)
      fun a b => a = node ∧ ∃ k ∈ indices, t.nodes k = some b := by
  have h := foldl_addDependency_gains m (fun ν k => ν k) (fun _ _ => some node) indices
    (fun k _ a b ha hb => Option.some.inj ha ▸ hlt hb) hd
  refine ⟨h.dag, h.old, ?_, fun hab => (h.only hab).imp_right fun ⟨k, hk, ha, hb⟩ =>
    ⟨(Option.some.inj ha).symm, k, hk, hb⟩, h.nodes⟩
  rintro a b ⟨rfl, k, hk, hb⟩
  exact h.new ⟨k, hk, rfl, hb⟩

theorem updateWrites_insnNodes (node : Fin bb.length) :
    (t.updateWrites S bb node).insnNodes = t.insnNodes := by
  have : ∀ (l : List ℕ) (t : DependencyTracker bb.length), (l.foldl (fun t index =>
      { t with nodes := Function.update t.nodes index (some node) }) t).insnNodes =
        t.insnNodes := by
    intro l
    induction l with
    | nil => exact fun _ => rfl
    | cons k l ih => exact fun t => ih _
  exact this _ t

theorem updateWrites_nodes (node : Fin bb.length) (k : ℕ) :
    (t.updateWrites S bb node).nodes k =
      if k ∈ S.updateIndices (bb.get node) then some node else t.nodes k := by
  have : ∀ (l : List ℕ) (t : DependencyTracker bb.length), (l.foldl (fun t index =>
      { t with nodes := Function.update t.nodes index (some node) }) t).nodes k =
      if k ∈ l then some node else t.nodes k := by
    intro l
    induction l with
    | nil => simp
    | cons k' l ih =>
      intro t
      rw [List.foldl_cons, ih]
      by_cases hl : k ∈ l
      · simp [hl]
      · by_cases hk : k = k'
        · simp [hk]
        · simp [hl, hk]
  exact this _ t

variable (S bb)

/-- The tracked index `k` is written by the instruction. -/
def Writes (i : Fin bb.length) (k : ℕ) : Prop := k ∈ S.updateIndices (bb.get i)

/-- The tracked index `k` is read by the instruction. -/
def Reads (i : Fin bb.length) (k : ℕ) : Prop := k ∈ S.readIndices (bb.get i)

def Touches (i : Fin bb.length) (k : ℕ) : Prop := Reads S bb i k ∨ k ∈ S.writeIndices (bb.get i)

instance (i : Fin bb.length) (k : ℕ) : Decidable (Writes S bb i k) :=
  inferInstanceAs (Decidable (_ ∈ _))

/-- The instruction `i` comes first, and both touch an index that one of them writes. -/
def Shares (i j : Fin bb.length) : Prop :=
  i < j ∧ ∃ k, Writes S bb i k ∧ Touches S bb j k ∨ Reads S bb i k ∧ Writes S bb j k

/-- The tracker ties the two together: they share an index, or one of them is a barrier. -/
def Tied (i j : Fin bb.length) : Prop :=
  Shares S bb i j ∨ i < j ∧
    ((bb.get i).isSchedulingBarrier = true ∨ (bb.get j).isSchedulingBarrier = true)

/-- The first pass before instruction `m`. -/
structure WritersTracked (m : ℕ) (t : DependencyTracker bb.length) : Prop where
  dag : Dag t.insnNodes
  last : ∀ k, IsLast (Writes S bb · k) m (t.nodes k)
  writer : ∀ j k x, j.val < m → Touches S bb j k → LastBefore (Writes S bb · k) j x →
    Depends t.insnNodes x j
  only : ∀ x j, Depends t.insnNodes x j → Shares S bb x j

/-- The second pass, down to instruction `m`. -/
structure ReadersTracked (m : ℕ) (t : DependencyTracker bb.length) : Prop where
  dag : Dag t.insnNodes
  first : ∀ k, IsFirst (Writes S bb · k) m (t.nodes k)
  writer : ∀ j k x, Touches S bb j k → LastBefore (Writes S bb · k) j x → Depends t.insnNodes x j
  reader : ∀ i k x, m ≤ i.val → Reads S bb i k → FirstFrom (Writes S bb · k) (i + 1) x →
    Depends t.insnNodes i x
  only : ∀ x j, Depends t.insnNodes x j → Shares S bb x j

variable {S bb}

theorem WritersTracked.step {node : Fin bb.length} (h : WritersTracked S bb node t) :
    WritersTracked S bb (node + 1) (trackWriters S bb t node) := by
  have hlt : ∀ {k a}, t.nodes k = some a → a < node := by
    intro k a ha
    have := h.last k
    rw [ha] at this
    exact this.2.1
  have hread := addWriters_gains (S.readIndices (bb.get node)) .readAfterWrite h.dag hlt
  have hwrite := addWriters_gains (S.writeIndices (bb.get node)) .writeAfterWrite hread.dag
    (by rw [hread.nodes]; exact hlt)
  have hboth := hread.trans hwrite
  constructor
  · rw [trackWriters, updateWrites_insnNodes]
    exact hboth.dag
  · intro k
    rw [trackWriters, updateWrites_nodes, hboth.nodes]
    exact (h.last k).succ
  · intro j k x hj hk hx
    rw [trackWriters, updateWrites_insnNodes]
    obtain hj | hj := Nat.lt_succ_iff_lt_or_eq.mp hj
    · exact hboth.old (h.writer j k x hj hk hx)
    · -- the last writer before this instruction is the one in the table
      obtain rfl : j = node := Fin.ext hj
      have hnode := (h.last k).eq_of_lastBefore hx
      obtain hk | hk := hk
      · exact hboth.new (.inl ⟨rfl, k, hk, hnode⟩)
      · exact hboth.new (.inr ⟨rfl, k, hk, by rw [hread.nodes]; exact hnode⟩)
  · intro x j hxj
    have hold : ∀ {k}, t.nodes k = some x → x < node ∧ Writes S bb x k := fun {k} hk => by
      have hlast := h.last k
      rw [hk] at hlast
      exact ⟨hlast.2.1, hlast.1⟩
    rw [trackWriters, updateWrites_insnNodes] at hxj
    obtain hxj | ⟨rfl, k, hk, hx⟩ | ⟨rfl, k, hk, hx⟩ := hboth.only hxj
    · exact h.only x j hxj
    · exact ⟨(hold hx).1, k, .inl ⟨(hold hx).2, .inl hk⟩⟩
    · rw [hread.nodes] at hx
      exact ⟨(hold hx).1, k, .inl ⟨(hold hx).2, .inr hk⟩⟩

theorem ReadersTracked.step {node : Fin bb.length} (h : ReadersTracked S bb (node + 1) t) :
    ReadersTracked S bb node (trackReaders S bb t node) := by
  have hlt : ∀ {k b}, t.nodes k = some b → node < b := by
    intro k b hb
    have := h.first k
    rw [hb] at this
    exact this.2.1
  have hread := addToWriters_gains (S.readIndices (bb.get node)) .writeAfterRead h.dag hlt
  constructor
  · rw [trackReaders, updateWrites_insnNodes]
    exact hread.dag
  · intro k
    rw [trackReaders, updateWrites_nodes, hread.nodes]
    exact (h.first k).pred
  · intro j k x hk hx
    rw [trackReaders, updateWrites_insnNodes]
    exact hread.old (h.writer j k x hk hx)
  · intro i k x hi hk hx
    rw [trackReaders, updateWrites_insnNodes]
    obtain hi | hi := Nat.lt_or_eq_of_le hi
    · exact hread.old (h.reader i k x hi hk hx)
    · obtain rfl : node = i := Fin.ext hi
      exact hread.new ⟨rfl, k, hk, (h.first k).eq_of_firstFrom hx⟩
  · intro x j hxj
    rw [trackReaders, updateWrites_insnNodes] at hxj
    obtain hxj | ⟨rfl, k, hk, hj⟩ := hread.only hxj
    · exact h.only x j hxj
    · have hfirst := h.first k
      rw [hj] at hfirst
      exact ⟨hfirst.2.1, k, .inr ⟨hk, hfirst.1⟩⟩

/-! ### Read distances and barriers -/

/-- Two tables that differ in the read distances only. -/
def SameDag (nodes nodes' : Fin bb.length → ScheduleDAGNode bb.length) : Prop :=
  ∀ x, (nodes' x).children = (nodes x).children ∧ (nodes' x).refNum = (nodes x).refNum ∧
    (nodes' x).preRetired = (nodes x).preRetired

theorem SameDag.depends {nodes nodes' : Fin bb.length → ScheduleDAGNode bb.length}
    (h : SameDag nodes nodes') {a b : Fin bb.length} :
    Depends nodes' a b ↔ Depends nodes a b := by
  unfold Depends
  rw [(h a).1]

theorem SameDag.dag {nodes nodes' : Fin bb.length → ScheduleDAGNode bb.length}
    (h : SameDag nodes nodes') (hd : Dag nodes) : Dag nodes' where
  lt hab := hd.lt (h.depends.mp hab)
  nodup a := (h a).1 ▸ hd.nodup a
  refNum b := by
    rw [(h b).2.1, hd.refNum b]
    simp only [h.depends]
  preRetired a := (h a).2.2.trans (hd.preRetired a)

theorem SameDag.trans {nodes1 nodes2 nodes3 : Fin bb.length → ScheduleDAGNode bb.length}
    (h1 : SameDag nodes1 nodes2) (h2 : SameDag nodes2 nodes3) : SameDag nodes1 nodes3 :=
  fun x => ⟨(h2 x).1.trans (h1 x).1, (h2 x).2.1.trans (h1 x).2.1, (h2 x).2.2.trans (h1 x).2.2⟩

theorem traverseReadNode_sameDag (deps : Fin bb.length → List (Fin bb.length)) (more : ℕ) :
    ∀ nodes node,
      SameDag nodes (DependencyTracker.traverseReadNode bb deps more nodes node) := by
  induction more with
  | zero =>
    intro nodes node
    rw [DependencyTracker.traverseReadNode]
    split
    · exact fun x => ⟨rfl, rfl, rfl⟩
    · intro x
      by_cases hx : x = node
      · simp [hx]
      · simp [hx]
  | succ more ih =>
    intro nodes node
    rw [DependencyTracker.traverseReadNode]
    split
    · exact fun x => ⟨rfl, rfl, rfl⟩
    · refine Lists.foldl_invariant (I := SameDag nodes) ?_ ?_
      · intro depNode _ nodes' h
        split
        · exact h
        · exact h.trans (ih nodes' depNode)
      · intro x
        by_cases hx : x = node
        · simp [hx]
        · simp [hx]

theorem traverseReads_sameDag : SameDag t.insnNodes (t.traverseReads bb).insnNodes := by
  refine Lists.foldl_invariant (I := SameDag t.insnNodes) ?_ fun x => ⟨rfl, rfl, rfl⟩
  intro node _ nodes h
  split
  · exact h.trans (traverseReadNode_sameDag t.deps 6 nodes node)
  · exact h

theorem makeBarrier_gains (barrier : Fin bb.length) (hd : Dag t.insnNodes) :
    Gains t (t.makeBarrier bb barrier)
      fun a b => a < b ∧ (b = barrier ∨ a = barrier) := by
  have hbefore := foldl_addDependency_gains (t := t) .writeAfterWrite (fun _ _ => some barrier)
    (fun _ node => some node) ((List.finRange bb.length).filter (· < barrier))
    (by
      rintro k hk a b ⟨⟩ ⟨⟩
      simpa using hk) hd
  have hafter := foldl_addDependency_gains .writeAfterWrite (fun _ node => some node)
    (fun _ _ => some barrier) ((List.finRange bb.length).filter (barrier < ·))
    (by
      rintro k hk a b ⟨⟩ ⟨⟩
      simpa using hk) hbefore.dag
  have hboth := hbefore.trans hafter
  refine ⟨hboth.dag, hboth.old, ?_, fun hab => (hboth.only hab).imp_right ?_, hboth.nodes⟩
  · rintro a b ⟨hab, rfl | rfl⟩
    · exact hboth.new (.inl ⟨a, by simpa using hab, rfl, rfl⟩)
    · exact hboth.new (.inr ⟨b, by simpa using hab, rfl, rfl⟩)
  · rintro (⟨k, hk, ⟨⟩, ⟨⟩⟩ | ⟨k, hk, ⟨⟩, ⟨⟩⟩)
    · exact ⟨by simpa using hk, .inl rfl⟩
    · exact ⟨by simpa using hk, .inr rfl⟩

theorem foldl_makeBarrier_gains (l : List (Fin bb.length)) (hd : Dag t.insnNodes) :
    Gains t (l.foldl (·.makeBarrier bb ·) t) fun a b => a < b ∧ (b ∈ l ∨ a ∈ l) := by
  induction l generalizing t with
  | nil => exact ⟨hd, id, fun h => by simp at h, .inl, rfl⟩
  | cons barrier l ih =>
    have hhead := makeBarrier_gains barrier hd
    have hrest := ih hhead.dag
    refine ⟨hrest.dag, fun h => hrest.old (hhead.old h), ?_, fun hab => ?_,
      hrest.nodes.trans hhead.nodes⟩
    · rintro a b ⟨hab, hb | ha⟩
      · obtain rfl | hb := List.mem_cons.mp hb
        · exact hrest.old (hhead.new ⟨hab, .inl rfl⟩)
        · exact hrest.new ⟨hab, .inl hb⟩
      · obtain rfl | ha := List.mem_cons.mp ha
        · exact hrest.old (hhead.new ⟨hab, .inr rfl⟩)
        · exact hrest.new ⟨hab, .inr ha⟩
    · obtain hab | ⟨hab, h⟩ := hrest.only hab
      · refine (hhead.only hab).imp_right fun ⟨hab, h⟩ => ⟨hab, h.imp ?_ ?_⟩ <;>
          exact fun h => List.mem_cons.mpr (.inl h)
      · exact .inr ⟨hab, h.imp (List.mem_cons_of_mem _) (List.mem_cons_of_mem _)⟩

/-! ### The DAG of a block -/

theorem trackWriters_all (S : SelectionScheduler) (bb : List SelectionInstruction) :
    WritersTracked S bb bb.length ((List.finRange bb.length).foldl (trackWriters S bb) {}) := by
  refine Lists.foldl_finRange (I := WritersTracked S bb) (fun node t h => h.step) ?_
  exact ⟨.init, fun _ => isLast_zero, fun j k x hj => absurd hj (Nat.not_lt_zero _),
    fun x j hxj => by simp [Depends] at hxj⟩

theorem trackReaders_all (S : SelectionScheduler) (bb : List SelectionInstruction) :
    ReadersTracked S bb 0 ((List.finRange bb.length).reverse.foldl (trackReaders S bb)
      { (List.finRange bb.length).foldl (trackWriters S bb) {} with nodes := fun _ => none }) := by
  refine Lists.foldl_reverse_finRange (I := ReadersTracked S bb) (fun node t h => h.step) ?_
  have h := trackWriters_all S bb
  exact ⟨h.dag, fun _ => isFirst_end, fun j k x => h.writer j k x j.isLt,
    fun i k x hi => absurd hi (not_le.mpr i.isLt), h.only⟩

/-- What the DAG of a block is and has. -/
structure Built (S : SelectionScheduler) (bb : List SelectionInstruction)
    (nodes : Fin bb.length → ScheduleDAGNode bb.length) : Prop where
  dag : Dag nodes
  writer : ∀ j k x, Touches S bb j k → LastBefore (Writes S bb · k) j x → Depends nodes x j
  reader : ∀ i k x, Reads S bb i k → FirstFrom (Writes S bb · k) (i + 1) x → Depends nodes i x
  barrier : ∀ i j, i < j →
    (bb.get i).isSchedulingBarrier = true ∨ (bb.get j).isSchedulingBarrier = true →
    Depends nodes i j
  only : ∀ i j, Depends nodes i j → Tied S bb i j

theorem buildTracker_built (S : SelectionScheduler) (bb : List SelectionInstruction) :
    Built S bb (buildTracker S bb).insnNodes := by
  have hpasses := trackReaders_all S bb
  have hsame := traverseReads_sameDag (t := (List.finRange bb.length).reverse.foldl
    (trackReaders S bb)
    { (List.finRange bb.length).foldl (trackWriters S bb) {} with nodes := fun _ => none })
  have hbarriers := foldl_makeBarrier_gains
    ((List.finRange bb.length).filter fun node => (bb.get node).isSchedulingBarrier)
    (hsame.dag hpasses.dag)
  constructor
  · exact hbarriers.dag
  · intro j k x hk hx
    exact hbarriers.old (hsame.depends.mpr (hpasses.writer j k x hk hx))
  · intro i k x hk hx
    exact hbarriers.old (hsame.depends.mpr (hpasses.reader i k x (Nat.zero_le _) hk hx))
  · intro i j hij h
    exact hbarriers.new ⟨hij, by simpa [or_comm] using h⟩
  · intro i j hij
    obtain hij | ⟨hij, h⟩ := hbarriers.only hij
    · exact .inl (hpasses.only i j (hsame.depends.mp hij))
    · exact .inr ⟨hij, by simpa [or_comm] using h⟩

/-- The paths of the DAG. -/
theorem Built.path_iff {nodes : Fin bb.length → ScheduleDAGNode bb.length}
    (h : Built S bb nodes) {i j : Fin bb.length} :
    Relation.TransGen (Depends nodes) i j ↔ Relation.TransGen (Tied S bb) i j := by
  refine ⟨Relation.TransGen.mono h.only _ _, fun hij => ?_⟩
  have hwriter : ∀ {i j : Fin bb.length} {k}, i < j → Writes S bb i k → Touches S bb j k →
      Relation.TransGen (Depends nodes) i j := by
    intro i j k
    refine related_of_writer (R := Relation.TransGen (Depends nodes)) .trans ?_
      fun j k x hk hx => .single (h.writer j k x hk hx)
    exact fun i k hk => SelectionScheduler.mem_of_mem_updateIndices hk
  have hreader : ∀ {i j : Fin bb.length} {k}, i < j → Reads S bb i k → Writes S bb j k →
      Relation.TransGen (Depends nodes) i j := by
    intro i j k
    refine related_of_reader (R := Relation.TransGen (Depends nodes)) .trans ?_
      fun i k x hk hx => .single (h.reader i k x hk hx)
    exact fun hij hi hj => hwriter hij hi (SelectionScheduler.mem_of_mem_updateIndices hj)
  -- each tie is a path
  refine hij.trans_induction_on (fun {a b} hab => ?_) fun _ _ => .trans
  obtain ⟨hlt, k, ⟨ha, hb⟩ | ⟨ha, hb⟩⟩ | ⟨hlt, hbar⟩ := hab
  · exact hwriter hlt ha hb
  · exact hreader hlt ha hb
  · exact .single (h.barrier a b hlt hbar)

end Build

end Backend
