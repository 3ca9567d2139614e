/-
The graph that the reductions of the structurizer leave (`CFGStructurizer::cfgUpdate` and
`replace`).

The top-level blocks always partition the basic blocks, their successors and predecessors are
two views of the same edges, and between different blocks there is an edge exactly where the
function has one.  A block is entered at its entry only.

The edge of a block to itself is another matter.  `cfgUpdate` adds it when an edge between two
members goes back in the order of the labels, whether it goes to the entry or not: a pattern
whose second block is laid out before the first one becomes a loop.

* `absorbed`, `reduced` — the sets after a pattern was replaced;
* `Reduced.graph`, `Reduced.selfEdges_iff` — one reduction;
* `patternMatch_step` — one call of `patternMatch`, on any top-level block;
* **`structurizer_quotient_iff`** — all runs, and that `blockPatternMatch` ends.
-/
import Beignet.Ir.Structurizer
import Beignet.Lib.Transition

namespace Ir.Structurizer

section Absorb

variable {n : ℕ} {s : State n} {merged : ℕ} {set : Finset ℕ}

/-- What the members in the list have given to the new block. -/
structure Absorbed (s : State n) (merged : ℕ) (set : Finset ℕ) (members : List ℕ)
    (t : State n) : Prop where
  count : t.count = s.count
  orderedBlks : t.orderedBlks = s.orderedBlks
  orderIter : t.orderIter = s.orderIter
  tree : ∀ x, t.tree x = s.tree x
  inside : ∀ x ∈ set, t.succ x = s.succ x ∧ t.pred x = s.pred x
  succ : ∀ x ∉ set, x ≠ merged → ∀ y, y ∈ t.succ x ↔
    y = merged ∧ (∃ i ∈ members, x ∈ s.pred i) ∨ y ∈ s.succ x ∧ ¬ (y ∈ members ∧ x ∈ s.pred y)
  pred : ∀ x ∉ set, x ≠ merged → ∀ y, y ∈ t.pred x ↔
    y = merged ∧ (∃ i ∈ members, x ∈ s.succ i) ∨ y ∈ s.pred x ∧ ¬ (y ∈ members ∧ x ∈ s.succ y)
  succ_merged : ∀ y, y ∈ t.succ merged ↔
    y ∈ s.succ merged ∨ y ∉ set ∧ ∃ i ∈ members, y ∈ s.succ i
  pred_merged : ∀ y, y ∈ t.pred merged ↔
    y ∈ s.pred merged ∨ y ∉ set ∧ ∃ i ∈ members, y ∈ s.pred i

theorem absorb_block_inside (s : State n) (iter : ℕ) {x : ℕ} (hx : x ∈ set)
    (hmerged : x ≠ merged) :
    (absorb merged set s iter).succ x = s.succ x ∧
      (absorb merged set s iter).pred x = s.pred x := by
  have hp : x ∉ s.pred iter \ set := fun h => (Finset.mem_sdiff.mp h).2 hx
  have hs : x ∉ s.succ iter \ set := fun h => (Finset.mem_sdiff.mp h).2 hx
  constructor
  · simp only [absorb, State.succ, State.pred, if_neg hmerged]
    exact if_neg hp
  · simp only [absorb, State.succ, State.pred, if_neg hmerged]
    exact if_neg hs

/-- One side of a block next to the merged one, behind a turn of the loop. -/
theorem mem_moved {ends side : Finset ℕ} {iter x : ℕ} (hx : x ∉ set) (y : ℕ) :
    y ∈ (if x ∈ ends \ set then insert merged (side.erase iter) else side) ↔
      y = merged ∧ x ∈ ends ∨ y ∈ side ∧ ¬ (y = iter ∧ x ∈ ends) := by
  have hiff : x ∈ ends \ set ↔ x ∈ ends := by
    rw [Finset.mem_sdiff]
    exact and_iff_left hx
  by_cases hp : x ∈ ends
  · rw [if_pos (hiff.mpr hp), Finset.mem_insert, Finset.mem_erase]
    tauto
  · rw [if_neg (fun h => hp (hiff.mp h))]
    tauto

theorem absorb_succ {iter x : ℕ} (hx : x ∉ set) (hmerged : x ≠ merged) (y : ℕ) :
    y ∈ (absorb merged set s iter).succ x ↔
      y = merged ∧ x ∈ s.pred iter ∨ y ∈ s.succ x ∧ ¬ (y = iter ∧ x ∈ s.pred iter) := by
  rw [← mem_moved hx]
  simp only [absorb, State.succ, if_neg hmerged]

theorem absorb_pred {iter x : ℕ} (hx : x ∉ set) (hmerged : x ≠ merged) (y : ℕ) :
    y ∈ (absorb merged set s iter).pred x ↔
      y = merged ∧ x ∈ s.succ iter ∨ y ∈ s.pred x ∧ ¬ (y = iter ∧ x ∈ s.succ iter) := by
  rw [← mem_moved hx]
  simp only [absorb, State.pred, if_neg hmerged]

theorem absorb_merged (iter : ℕ) :
    (absorb merged set s iter).succ merged = s.succ merged ∪ (s.succ iter \ set) ∧
      (absorb merged set s iter).pred merged = s.pred merged ∪ (s.pred iter \ set) := by
  constructor <;> simp [absorb, State.succ, State.pred]

theorem absorb_tree (iter x : ℕ) : (absorb merged set s iter).tree x = s.tree x := by
  simp only [absorb, State.tree]
  split <;> rfl

theorem union_step {A S B D : Prop} : (A ∨ ¬ S ∧ B) ∨ D ∧ ¬ S ↔ A ∨ ¬ S ∧ (B ∨ D) := by
  tauto

/-- One member more is erased. -/
theorem erase_step {y merged iter : ℕ} {S E m p q : Prop} (hy : y = merged → ¬ m ∧ y ≠ iter)
    (hpq : y = iter → (p ↔ q)) :
    y = merged ∧ p ∨ (y = merged ∧ E ∨ S ∧ ¬ (m ∧ q)) ∧ ¬ (y = iter ∧ p) ↔
      y = merged ∧ (E ∨ p) ∨ S ∧ ¬ ((m ∨ y = iter) ∧ q) := by
  by_cases hm : y = merged
  · obtain ⟨hnot, hne⟩ := hy hm
    simp only [hm ▸ hne, hnot, hm, true_and, false_and, or_self, not_false_eq_true, and_true]
    tauto
  · simp only [hm, false_and, false_or]
    by_cases hi : y = iter
    · rw [hpq hi]
      tauto
    · simp only [hi, or_false, false_and, not_false_eq_true, and_true]

/-- **All members together.** -/
theorem absorbed (members : List ℕ) (hsub : ∀ i ∈ members, i ∈ set) (hnew : merged ∉ set) :
    Absorbed s merged set members (members.foldl (absorb merged set) s) := by
  induction members using List.reverseRecOn with
  | nil => exact ⟨rfl, rfl, rfl, by simp, by simp, by simp, by simp, by simp, by simp⟩
  | append_singleton members iter ih =>
    have ih := ih fun i hi => hsub i (List.mem_append_left _ hi)
    have hiter : iter ∈ set := hsub iter (by simp)
    obtain ⟨hsucc, hpred⟩ := ih.inside iter hiter
    rw [List.foldl_append, List.foldl_cons, List.foldl_nil]
    have hex : ∀ Q : ℕ → Prop, (∃ i ∈ members ++ [iter], Q i) ↔ (∃ i ∈ members, Q i) ∨ Q iter := by
      intro Q
      simp only [List.mem_append, List.mem_singleton, or_and_right, exists_or, exists_eq_left]
    have hfresh : ∀ y, y = merged → y ∉ members ∧ y ≠ iter := by
      rintro y rfl
      exact ⟨fun h => hnew (hsub y (List.mem_append_left _ h)), fun h => hnew (h ▸ hiter)⟩
    refine ⟨ih.count, ih.orderedBlks, ih.orderIter, fun x => ?_, fun x hx => ?_,
      fun x hx hm y => ?_, fun x hx hm y => ?_, fun y => ?_, fun y => ?_⟩
    · rw [absorb_tree, ih.tree]
    · have hne : x ≠ merged := fun h => hnew (h ▸ hx)
      obtain ⟨h1, h2⟩ := absorb_block_inside (members.foldl (absorb merged set) s) iter hx hne
      rw [h1, h2]
      exact ih.inside x hx
    · rw [absorb_succ hx hm, hpred, ih.succ x hx hm y, hex, List.mem_append, List.mem_singleton]
      exact erase_step (hfresh y) fun hy => by rw [hy]
    · rw [absorb_pred hx hm, hsucc, ih.pred x hx hm y, hex, List.mem_append, List.mem_singleton]
      exact erase_step (hfresh y) fun hy => by rw [hy]
    · rw [(absorb_merged iter).1, hsucc, Finset.mem_union, ih.succ_merged y, Finset.mem_sdiff, hex]
      exact union_step
    · rw [(absorb_merged iter).2, hpred, Finset.mem_union, ih.pred_merged y, Finset.mem_sdiff, hex]
      exact union_step

end Absorb

/-! ### One reduction -/

section Reduce

variable {cfg : Cfg} {s : State cfg.size} {p : Pattern}

/-- The state after a pattern was replaced. -/
structure Reduced (cfg : Cfg) (s : State cfg.size) (p : Pattern) (t : State cfg.size) : Prop where
  count : t.count = s.count + 1
  orderedBlks : t.orderedBlks =
    replaceLoop s.count s.orderedBlks p.members.toFinset false
  orderIter : t.orderIter =
    (s.orderedBlks.findIdx? (· ∈ p.members.toFinset)).getD s.orderIter
  numPatternMatch : t.numPatternMatch = s.numPatternMatch + 1
  tree : ∀ x ≠ s.count, t.tree x = s.tree x
  tree_merged : t.tree s.count = p.tree s s.count
  inside : ∀ x ∈ p.members, t.succ x = s.succ x ∧ t.pred x = s.pred x
  succ : ∀ x ∉ p.members, x ≠ s.count → ∀ y, y ∈ t.succ x ↔
    y = s.count ∧ (∃ i ∈ p.members, x ∈ s.pred i) ∨
      y ∈ s.succ x ∧ ¬ (y ∈ p.members ∧ x ∈ s.pred y)
  pred : ∀ x ∉ p.members, x ≠ s.count → ∀ y, y ∈ t.pred x ↔
    y = s.count ∧ (∃ i ∈ p.members, x ∈ s.succ i) ∨
      y ∈ s.pred x ∧ ¬ (y ∈ p.members ∧ x ∈ s.succ y)
  succ_merged : ∀ y, y ∈ t.succ s.count ↔
    (y ∉ p.members ∧ ∃ i ∈ p.members, y ∈ s.succ i) ∨
      y = s.count ∧ p.isLoop = false ∧ Descends cfg s p.members
  pred_merged : ∀ y, y ∈ t.pred s.count ↔
    (y ∉ p.members ∧ ∃ i ∈ p.members, y ∈ s.pred i) ∨
      y = s.count ∧ p.isLoop = false ∧ Descends cfg s p.members

theorem descends_congr {t : State cfg.size} {members : List ℕ}
    (hsucc : ∀ x ∈ members, t.succ x = s.succ x) (htree : ∀ x ∈ members, t.tree x = s.tree x) :
    Descends cfg t members ↔ Descends cfg s members := by
  unfold Descends State.entry
  refine exists_congr fun x => and_congr_right fun hx => ?_
  refine exists_congr fun y => and_congr_right fun hy => ?_
  rw [hsucc x hx, htree x hx, htree y hy]

theorem selfEdge_of_ne {n : ℕ} (t : State n) {merged x : ℕ} (h : x ≠ merged) :
    (selfEdge t merged).block x = t.block x := Function.update_of_ne h _ _

/-- The edges of the new block, and of all others. -/
theorem cfgUpdate_spec (hlt : ∀ x ∈ p.members, x < s.count) :
    ∃ t, Absorbed (insertBlock s (p.newBlock s)) s.count p.members.toFinset p.members t ∧
      (∀ x ≠ s.count, (cfgUpdate cfg s.count p (insertBlock s (p.newBlock s))).block x =
        t.block x) ∧
      (∀ y, y ∈ (cfgUpdate cfg s.count p (insertBlock s (p.newBlock s))).succ s.count ↔
        y ∈ t.succ s.count ∨ y = s.count ∧ p.isLoop = false ∧ Descends cfg s p.members) ∧
      (∀ y, y ∈ (cfgUpdate cfg s.count p (insertBlock s (p.newBlock s))).pred s.count ↔
        y ∈ t.pred s.count ∨ y = s.count ∧ p.isLoop = false ∧ Descends cfg s p.members) ∧
      (cfgUpdate cfg s.count p (insertBlock s (p.newBlock s))).tree s.count = t.tree s.count ∧
      (cfgUpdate cfg s.count p (insertBlock s (p.newBlock s))).orderedBlks = t.orderedBlks ∧
      (cfgUpdate cfg s.count p (insertBlock s (p.newBlock s))).orderIter = t.orderIter ∧
      (cfgUpdate cfg s.count p (insertBlock s (p.newBlock s))).count = t.count := by
  have hne : ∀ x ∈ p.members, x ≠ s.count := fun x hx => (hlt x hx).ne
  have habs : Absorbed (insertBlock s (p.newBlock s)) s.count p.members.toFinset p.members _ :=
    absorbed p.members (fun i hi => List.mem_toFinset.mpr hi)
      (fun h => hne _ (List.mem_toFinset.mp h) rfl)
  refine ⟨_, habs, ?_⟩
  generalize ht : p.members.foldl (absorb s.count p.members.toFinset)
    (insertBlock s (p.newBlock s)) = t at habs
  have hdesc : Descends cfg t p.members ↔ Descends cfg s p.members := by
    have hold : ∀ x ∈ p.members, (insertBlock s (p.newBlock s)).block x = s.block x :=
      fun x hx => Function.update_of_ne (hne x hx) _ _
    refine descends_congr (fun x hx => ?_) fun x hx => ?_
    · rw [(habs.inside x (List.mem_toFinset.mpr hx)).1, State.succ, hold x hx, State.succ]
    · rw [habs.tree x, State.tree, hold x hx, State.tree]
  simp only [cfgUpdate, ht]
  by_cases hself : (!p.isLoop && decide (Descends cfg t p.members)) = true
  · rw [if_pos hself]
    have hcond : p.isLoop = false ∧ Descends cfg s p.members := by
      rw [← hdesc]
      simpa using hself
    refine ⟨fun x hx => selfEdge_of_ne t hx, fun y => ?_, fun y => ?_, ?_, rfl, rfl, rfl⟩
    · simp only [selfEdge, State.succ, Function.update_self, Finset.mem_insert]
      rw [and_iff_left hcond, or_comm]
    · simp only [selfEdge, State.pred, Function.update_self, Finset.mem_insert]
      rw [and_iff_left hcond, or_comm]
    · simp only [selfEdge, State.tree, Function.update_self]
  · rw [if_neg hself]
    have hcond : ¬ (p.isLoop = false ∧ Descends cfg s p.members) := by
      rw [← hdesc]
      simpa using hself
    refine ⟨fun x _ => rfl, fun y => ?_, fun y => ?_, rfl, rfl, rfl, rfl⟩
    · exact (or_iff_left fun h => hcond h.2).symm
    · exact (or_iff_left fun h => hcond h.2).symm

/-- **What a reduction does.** -/
theorem reduced (hlt : ∀ x ∈ p.members, x < s.count) : Reduced cfg s p (reduce cfg s p) := by
  obtain ⟨t, habs, hblock, hsucc, hpred, htree, hordered, hiter, hcount⟩ := cfgUpdate_spec hlt
  have hold : ∀ x ≠ s.count, (insertBlock s (p.newBlock s)).block x = s.block x :=
    fun x hx => Function.update_of_ne hx _ _
  have hnew : (insertBlock s (p.newBlock s)).block s.count = p.newBlock s :=
    Function.update_self _ _ _
  have hmem : ∀ x, x ∈ p.members.toFinset ↔ x ∈ p.members := fun x => List.mem_toFinset
  have hne : ∀ x ∈ p.members, x ≠ s.count := fun x hx => (hlt x hx).ne
  -- the sets of the members are those before
  have hs0 : ∀ i ∈ p.members, (insertBlock s (p.newBlock s)).succ i = s.succ i := fun i hi => by
    rw [State.succ, hold i (hne i hi), State.succ]
  have hp0 : ∀ i ∈ p.members, (insertBlock s (p.newBlock s)).pred i = s.pred i := fun i hi => by
    rw [State.pred, hold i (hne i hi), State.pred]
  refine ⟨?_, ?_, ?_, rfl, fun x hx => ?_, ?_, fun x hx => ?_, fun x hx hxc y => ?_,
    fun x hx hxc y => ?_, fun y => ?_, fun y => ?_⟩
  · exact (hcount.trans habs.count)
  · show replaceLoop _ _ _ _ = _
    rw [hordered, habs.orderedBlks]
    rfl
  · show Option.getD _ _ = _
    rw [hordered, habs.orderedBlks, hiter, habs.orderIter]
    rfl
  · show State.tree _ x = _
    have : (cfgUpdate cfg s.count p (insertBlock s (p.newBlock s))).tree x = t.tree x := by
      rw [State.tree, hblock x hx, State.tree]
    refine this.trans ?_
    rw [habs.tree, State.tree, hold x hx, State.tree]
  · refine htree.trans ?_
    rw [habs.tree, State.tree, hnew]
    rfl
  · have hin := habs.inside x ((hmem x).mpr hx)
    constructor
    · show (State.block _ x).successors = _
      rw [show (reduce cfg s p).block x = _ from hblock x (hne x hx)]
      exact hin.1.trans (hs0 x hx)
    · show (State.block _ x).predecessors = _
      rw [show (reduce cfg s p).block x = _ from hblock x (hne x hx)]
      exact hin.2.trans (hp0 x hx)
  · show y ∈ (State.block _ x).successors ↔ _
    rw [show (reduce cfg s p).block x = _ from hblock x hxc]
    refine (habs.succ x (fun h => hx ((hmem x).mp h)) hxc y).trans ?_
    have hx0 : (insertBlock s (p.newBlock s)).succ x = s.succ x := by
      rw [State.succ, hold x hxc, State.succ]
    rw [hx0]
    refine or_congr (and_congr_right fun _ => ?_) (and_congr_right fun _ => not_congr ?_)
    · exact exists_congr fun i => and_congr_right fun hi => by rw [hp0 i hi]
    · exact and_congr_right fun hy => by rw [hp0 y hy]
  · show y ∈ (State.block _ x).predecessors ↔ _
    rw [show (reduce cfg s p).block x = _ from hblock x hxc]
    refine (habs.pred x (fun h => hx ((hmem x).mp h)) hxc y).trans ?_
    have hx0 : (insertBlock s (p.newBlock s)).pred x = s.pred x := by
      rw [State.pred, hold x hxc, State.pred]
    rw [hx0]
    refine or_congr (and_congr_right fun _ => ?_) (and_congr_right fun _ => not_congr ?_)
    · exact exists_congr fun i => and_congr_right fun hi => by rw [hs0 i hi]
    · exact and_congr_right fun hy => by rw [hs0 y hy]
  · refine (hsucc y).trans (or_congr_left ?_)
    rw [habs.succ_merged y, State.succ, hnew, hmem]
    refine (or_iff_right (Finset.notMem_empty y)).trans (and_congr_right fun _ => ?_)
    exact exists_congr fun i => and_congr_right fun hi => by rw [hs0 i hi]
  · refine (hpred y).trans (or_congr_left ?_)
    rw [habs.pred_merged y, State.pred, hnew, hmem]
    refine (or_iff_right (Finset.notMem_empty y)).trans (and_congr_right fun _ => ?_)
    exact exists_congr fun i => and_congr_right fun hi => by rw [hp0 i hi]

end Reduce

/-! ### The ordered blocks -/

section Replace

variable {merged : ℕ} {xs : List ℕ} {set : Finset ℕ}

theorem replaceLoop_true (hnodup : xs.Nodup) :
    replaceLoop merged xs set true = xs.filter (· ∉ set) := by
  induction xs generalizing set with
  | nil => rfl
  | cons x xs ih =>
    obtain ⟨hx, hxs⟩ := List.nodup_cons.mp hnodup
    rw [replaceLoop]
    split
    · rename_i hempty
      rw [hempty]
      exact (List.filter_eq_self.mpr (by simp)).symm
    · by_cases hmem : x ∈ set
      · rw [if_pos hmem, if_pos rfl, ih hxs, List.filter_cons_of_neg (by simpa using hmem)]
        refine List.filter_congr fun y hy => ?_
        have hne : y ≠ x := fun h => hx (h ▸ hy)
        simp [Finset.mem_erase, hne]
      · rw [if_neg hmem, ih hxs, List.filter_cons_of_pos (by simpa using hmem)]

/-- The new block comes to the place of the first member, the others are taken out. -/
theorem replaceLoop_perm (hnodup : xs.Nodup) (hex : ∃ x ∈ xs, x ∈ set) :
    (replaceLoop merged xs set false).Perm (merged :: xs.filter (· ∉ set)) := by
  induction xs generalizing set with
  | nil => simp at hex
  | cons x xs ih =>
    obtain ⟨hx, hxs⟩ := List.nodup_cons.mp hnodup
    have hne : set ≠ ∅ := by
      rintro rfl
      simp at hex
    rw [replaceLoop, if_neg hne]
    by_cases hmem : x ∈ set
    · rw [if_pos hmem, if_neg (by decide), replaceLoop_true hxs,
        List.filter_cons_of_neg (by simpa using hmem)]
      refine List.Perm.cons _ (List.Perm.of_eq (List.filter_congr fun y hy => ?_))
      have hne : y ≠ x := fun h => hx (h ▸ hy)
      simp [Finset.mem_erase, hne]
    · rw [if_neg hmem, List.filter_cons_of_pos (by simpa using hmem)]
      have hex' : ∃ y ∈ xs, y ∈ set := by
        obtain ⟨y, hy, hset⟩ := hex
        rcases List.mem_cons.mp hy with rfl | hy
        · exact absurd hset hmem
        · exact ⟨y, hy, hset⟩
      exact ((ih hxs hex').cons x).trans (List.Perm.swap _ _ _)

theorem replaceLoop_none (h : ∀ x ∈ xs, x ∉ set) : replaceLoop merged xs set false = xs := by
  induction xs with
  | nil => rfl
  | cons x xs ih =>
    rw [replaceLoop]
    split
    · rfl
    · rw [if_neg (h x (by simp)), ih fun y hy => h y (List.mem_cons_of_mem _ hy)]

end Replace

/-! ### The quotient -/

section Quotient

variable {cfg : Cfg} {s t : State cfg.size} {p : Pattern}

/-- An edge of the function goes from a basic block of `x` to one of `y`. -/
def Crosses (cfg : Cfg) (s : State cfg.size) (x y : ℕ) : Prop :=
  ∃ u ∈ s.bbs x, ∃ v ∈ s.bbs y, v ∈ cfg.successors u

/-- An edge of the function goes from a basic block of `x` to the entry of `x`. -/
def EntersItself (cfg : Cfg) (s : State cfg.size) (x : ℕ) : Prop :=
  ∃ u ∈ s.bbs x, s.entry x ∈ cfg.successors u

/-- The top-level blocks are the quotient of the control flow graph. -/
structure Graph (cfg : Cfg) (s : State cfg.size) : Prop where
  nodup : s.orderedBlks.Nodup
  lt : ∀ x ∈ s.orderedBlks, x < s.count
  cover : ∀ bb, ∃ x ∈ s.orderedBlks, bb ∈ s.bbs x
  disjoint : ∀ x ∈ s.orderedBlks, ∀ y ∈ s.orderedBlks, ∀ bb ∈ s.bbs x, bb ∈ s.bbs y → x = y
  closed : ∀ x ∈ s.orderedBlks, ∀ y, y ∈ s.succ x ∨ y ∈ s.pred x → y ∈ s.orderedBlks
  symm : ∀ x ∈ s.orderedBlks, ∀ y ∈ s.orderedBlks, (y ∈ s.succ x ↔ x ∈ s.pred y)
  edge : ∀ x ∈ s.orderedBlks, ∀ y ∈ s.orderedBlks, x ≠ y → (y ∈ s.succ x ↔ Crosses cfg s x y)
  enter : ∀ x ∈ s.orderedBlks, ∀ u ∉ s.bbs x, ∀ v ∈ s.bbs x, v ∈ cfg.successors u → v = s.entry x
  simple : ∀ x ∈ s.orderedBlks, ∀ bb, s.tree x = .single bb → x = bb

/-- A block has an edge to itself only where one goes back to its entry. -/
def SelfEdges (cfg : Cfg) (s : State cfg.size) : Prop :=
  ∀ x ∈ s.orderedBlks, x ∈ s.succ x → EntersItself cfg s x

/-- A pattern of top-level blocks that is entered at its head only. -/
structure Pattern.Valid (s : State cfg.size) (p : Pattern) : Prop where
  mem : ∀ x ∈ p.members, x ∈ s.orderedBlks
  inner : ∀ x ∈ p.members, x ≠ p.head → ∀ y ∈ s.pred x, y ∈ p.members

theorem Pattern.head_mem (p : Pattern) : p.head ∈ p.members := by
  cases p <;> simp [Pattern.head, Pattern.members]

theorem Pattern.mem_sequence (s : State cfg.size) (id : ℕ) (p : Pattern) (bb : Fin cfg.size) :
    bb ∈ (p.tree s id).sequence ↔ ∃ x ∈ p.members, bb ∈ s.bbs x := by
  cases p <;> simp [Pattern.tree, Pattern.members, Tree.sequence, State.bbs]

theorem Pattern.getEntry_tree (s : State cfg.size) (id : ℕ) (p : Pattern) :
    (p.tree s id).getEntry = s.entry p.head := by
  cases p <;> rfl

/-- The pattern goes back to its entry. -/
def Pattern.GoesBack (cfg : Cfg) (s : State cfg.size) (p : Pattern) : Prop :=
  ∃ x ∈ p.members, ∃ u ∈ s.bbs x, s.entry p.head ∈ cfg.successors u

namespace Reduced

variable (h : Reduced cfg s p t) (hs : Graph cfg s) (hp : p.Valid s)

include h hs hp in
theorem perm_orderedBlks :
    t.orderedBlks.Perm (s.count :: s.orderedBlks.filter (· ∉ p.members.toFinset)) := by
  rw [h.orderedBlks]
  exact replaceLoop_perm hs.nodup
    ⟨p.head, hp.mem _ p.head_mem, List.mem_toFinset.mpr p.head_mem⟩

include h hs hp in
theorem mem_orderedBlks {x : ℕ} :
    x ∈ t.orderedBlks ↔ x = s.count ∨ x ∈ s.orderedBlks ∧ x ∉ p.members := by
  rw [(h.perm_orderedBlks hs hp).mem_iff, List.mem_cons, List.mem_filter]
  simp

include hs in
theorem notMem_count {x : ℕ} (hx : x ∈ s.orderedBlks) : s.count ∉ s.succ x ∧ s.count ∉ s.pred x :=
  ⟨fun hy => absurd (hs.lt _ (hs.closed x hx _ (.inl hy))) (lt_irrefl _),
    fun hy => absurd (hs.lt _ (hs.closed x hx _ (.inr hy))) (lt_irrefl _)⟩

include h hs in
/-- Blocks outside the pattern keep their basic blocks. -/
theorem bbs_old {x : ℕ} (hx : x ∈ s.orderedBlks) : t.bbs x = s.bbs x ∧ t.entry x = s.entry x := by
  have htree := h.tree x (hs.lt x hx).ne
  exact ⟨by rw [State.bbs, htree, State.bbs], by rw [State.entry, htree, State.entry]⟩

include h in
theorem mem_bbs_merged {bb : Fin cfg.size} :
    bb ∈ t.bbs s.count ↔ ∃ x ∈ p.members, bb ∈ s.bbs x := by
  rw [State.bbs, h.tree_merged, Pattern.mem_sequence]

include h in
theorem entry_merged : t.entry s.count = s.entry p.head := by
  rw [State.entry, h.tree_merged, Pattern.getEntry_tree]

include h hs hp in
theorem succ_old {x : ℕ} (hx : x ∈ s.orderedBlks) (hnot : x ∉ p.members) (y : ℕ) :
    y ∈ t.succ x ↔ y = s.count ∧ (∃ i ∈ p.members, i ∈ s.succ x) ∨
      y ∈ s.succ x ∧ y ∉ p.members := by
  rw [h.succ x hnot (hs.lt x hx).ne y]
  refine or_congr (and_congr_right fun _ => exists_congr fun i => and_congr_right fun hi => ?_)
    (and_congr_right fun hy => not_congr ?_)
  · exact (hs.symm x hx i (hp.mem i hi)).symm
  · refine and_iff_left_of_imp fun hmem => ?_
    exact (hs.symm x hx y (hp.mem y hmem)).mp hy

include h hs hp in
theorem pred_old {x : ℕ} (hx : x ∈ s.orderedBlks) (hnot : x ∉ p.members) (y : ℕ) :
    y ∈ t.pred x ↔ y = s.count ∧ (∃ i ∈ p.members, i ∈ s.pred x) ∨
      y ∈ s.pred x ∧ y ∉ p.members := by
  rw [h.pred x hnot (hs.lt x hx).ne y]
  refine or_congr (and_congr_right fun _ => exists_congr fun i => and_congr_right fun hi => ?_)
    (and_congr_right fun hy => not_congr ?_)
  · exact hs.symm i (hp.mem i hi) x hx
  · refine and_iff_left_of_imp fun hmem => ?_
    exact (hs.symm y (hp.mem y hmem) x hx).mpr hy

include h hs in
theorem crosses_old {x y : ℕ} (hx : x ∈ s.orderedBlks) (hy : y ∈ s.orderedBlks) :
    Crosses cfg t x y ↔ Crosses cfg s x y := by
  rw [Crosses, (h.bbs_old hs hx).1, (h.bbs_old hs hy).1]
  rfl

include h hs hp in
theorem crosses_to {x : ℕ} (hx : x ∈ s.orderedBlks) (hnot : x ∉ p.members) :
    Crosses cfg t x s.count ↔ ∃ i ∈ p.members, i ∈ s.succ x := by
  have hne : ∀ i ∈ p.members, x ≠ i := fun i hi heq => hnot (heq ▸ hi)
  constructor
  · rintro ⟨u, hu, v, hv, huv⟩
    rw [(h.bbs_old hs hx).1] at hu
    obtain ⟨i, hi, hvi⟩ := h.mem_bbs_merged.mp hv
    exact ⟨i, hi, (hs.edge x hx i (hp.mem i hi) (hne i hi)).mpr ⟨u, hu, v, hvi, huv⟩⟩
  · rintro ⟨i, hi, hmem⟩
    obtain ⟨u, hu, v, hv, huv⟩ := (hs.edge x hx i (hp.mem i hi) (hne i hi)).mp hmem
    rw [← (h.bbs_old hs hx).1] at hu
    exact ⟨u, hu, v, h.mem_bbs_merged.mpr ⟨i, hi, hv⟩, huv⟩

include h hs hp in
theorem crosses_from {y : ℕ} (hy : y ∈ s.orderedBlks) (hnot : y ∉ p.members) :
    Crosses cfg t s.count y ↔ ∃ i ∈ p.members, y ∈ s.succ i := by
  have hne : ∀ i ∈ p.members, i ≠ y := fun i hi heq => hnot (heq ▸ hi)
  constructor
  · rintro ⟨u, hu, v, hv, huv⟩
    rw [(h.bbs_old hs hy).1] at hv
    obtain ⟨i, hi, hui⟩ := h.mem_bbs_merged.mp hu
    exact ⟨i, hi, (hs.edge i (hp.mem i hi) y hy (hne i hi)).mpr ⟨u, hui, v, hv, huv⟩⟩
  · rintro ⟨i, hi, hmem⟩
    obtain ⟨u, hu, v, hv, huv⟩ := (hs.edge i (hp.mem i hi) y hy (hne i hi)).mp hmem
    rw [← (h.bbs_old hs hy).1] at hv
    exact ⟨u, h.mem_bbs_merged.mpr ⟨i, hi, hu⟩, v, hv, huv⟩

include h hs in
theorem mem_succ_merged {y : ℕ} (hy : y ∈ s.orderedBlks) (hnot : y ∉ p.members) :
    (y ∈ t.succ s.count ↔ ∃ i ∈ p.members, y ∈ s.succ i) ∧
      (y ∈ t.pred s.count ↔ ∃ i ∈ p.members, y ∈ s.pred i) := by
  have hne : y ≠ s.count := (hs.lt y hy).ne
  rw [h.succ_merged, h.pred_merged]
  exact ⟨(or_iff_left fun hc => hne hc.1).trans (and_iff_right hnot),
    (or_iff_left fun hc => hne hc.1).trans (and_iff_right hnot)⟩

include h hs hp in
theorem count_mem_succ {x : ℕ} (hx : x ∈ s.orderedBlks) (hnot : x ∉ p.members) :
    (s.count ∈ t.succ x ↔ ∃ i ∈ p.members, i ∈ s.succ x) ∧
      (s.count ∈ t.pred x ↔ ∃ i ∈ p.members, i ∈ s.pred x) := by
  obtain ⟨hsucc, hpred⟩ := notMem_count hs hx
  rw [h.succ_old hs hp hx hnot, h.pred_old hs hp hx hnot]
  exact ⟨(or_iff_left fun hc => hsucc hc.1).trans (and_iff_right rfl),
    (or_iff_left fun hc => hpred hc.1).trans (and_iff_right rfl)⟩

include h hs hp in
/-- The edge of the new block to itself. -/
theorem count_mem_succ_merged :
    (s.count ∈ t.succ s.count ↔ p.isLoop = false ∧ Descends cfg s p.members) ∧
      (s.count ∈ t.pred s.count ↔ p.isLoop = false ∧ Descends cfg s p.members) := by
  rw [h.succ_merged, h.pred_merged]
  constructor
  · refine (or_iff_right ?_).trans (and_iff_right rfl)
    rintro ⟨-, i, hi, hmem⟩
    exact (notMem_count hs (hp.mem i hi)).1 hmem
  · refine (or_iff_right ?_).trans (and_iff_right rfl)
    rintro ⟨-, i, hi, hmem⟩
    exact (notMem_count hs (hp.mem i hi)).2 hmem

include h hs hp in
theorem mem_succ_old {x y : ℕ} (hx : x ∈ s.orderedBlks) (hxnot : x ∉ p.members)
    (hy : y ∈ s.orderedBlks) (hynot : y ∉ p.members) :
    (y ∈ t.succ x ↔ y ∈ s.succ x) ∧ (y ∈ t.pred x ↔ y ∈ s.pred x) := by
  have hne : y ≠ s.count := (hs.lt y hy).ne
  rw [h.succ_old hs hp hx hxnot, h.pred_old hs hp hx hxnot]
  exact ⟨(or_iff_right fun hc => hne hc.1).trans (and_iff_left hynot),
    (or_iff_right fun hc => hne hc.1).trans (and_iff_left hynot)⟩

include h hs hp in
/-- **A reduction leaves a quotient.** -/
theorem graph : Graph cfg t where
  nodup := by
    rw [(h.perm_orderedBlks hs hp).nodup_iff, List.nodup_cons]
    refine ⟨fun hmem => ?_, hs.nodup.filter _⟩
    exact absurd (hs.lt _ (List.mem_filter.mp hmem).1) (lt_irrefl _)
  lt x hx := by
    rw [h.count]
    rcases (h.mem_orderedBlks hs hp).mp hx with rfl | ⟨hx, -⟩
    · exact Nat.lt_succ_self _
    · exact Nat.lt_succ_of_lt (hs.lt x hx)
  cover bb := by
    obtain ⟨x, hx, hbb⟩ := hs.cover bb
    by_cases hmem : x ∈ p.members
    · exact ⟨s.count, (h.mem_orderedBlks hs hp).mpr (.inl rfl),
        h.mem_bbs_merged.mpr ⟨x, hmem, hbb⟩⟩
    · refine ⟨x, (h.mem_orderedBlks hs hp).mpr (.inr ⟨hx, hmem⟩), ?_⟩
      rwa [(h.bbs_old hs hx).1]
  disjoint x hx y hy bb hbx hby := by
    rcases (h.mem_orderedBlks hs hp).mp hx with rfl | ⟨hx, hxnot⟩ <;>
      rcases (h.mem_orderedBlks hs hp).mp hy with rfl | ⟨hy, hynot⟩
    · rfl
    · obtain ⟨i, hi, hbi⟩ := h.mem_bbs_merged.mp hbx
      rw [(h.bbs_old hs hy).1] at hby
      exact absurd (hs.disjoint i (hp.mem i hi) y hy bb hbi hby ▸ hi) hynot
    · obtain ⟨i, hi, hbi⟩ := h.mem_bbs_merged.mp hby
      rw [(h.bbs_old hs hx).1] at hbx
      exact absurd (hs.disjoint i (hp.mem i hi) x hx bb hbi hbx ▸ hi) hxnot
    · rw [(h.bbs_old hs hx).1] at hbx
      rw [(h.bbs_old hs hy).1] at hby
      exact hs.disjoint x hx y hy bb hbx hby
  closed x hx y hy := by
    rw [h.mem_orderedBlks hs hp]
    rcases (h.mem_orderedBlks hs hp).mp hx with rfl | ⟨hx, hxnot⟩
    · rw [h.succ_merged, h.pred_merged] at hy
      rcases hy with (⟨hynot, i, hi, hy⟩ | ⟨rfl, -⟩) | (⟨hynot, i, hi, hy⟩ | ⟨rfl, -⟩)
      · exact .inr ⟨hs.closed i (hp.mem i hi) y (.inl hy), hynot⟩
      · exact .inl rfl
      · exact .inr ⟨hs.closed i (hp.mem i hi) y (.inr hy), hynot⟩
      · exact .inl rfl
    · rw [h.succ_old hs hp hx hxnot, h.pred_old hs hp hx hxnot] at hy
      rcases hy with (⟨rfl, -⟩ | ⟨hy, hynot⟩) | (⟨rfl, -⟩ | ⟨hy, hynot⟩)
      · exact .inl rfl
      · exact .inr ⟨hs.closed x hx y (.inl hy), hynot⟩
      · exact .inl rfl
      · exact .inr ⟨hs.closed x hx y (.inr hy), hynot⟩
  symm x hx y hy := by
    rcases (h.mem_orderedBlks hs hp).mp hx with rfl | ⟨hx, hxnot⟩ <;>
      rcases (h.mem_orderedBlks hs hp).mp hy with rfl | ⟨hy, hynot⟩
    · rw [(h.count_mem_succ_merged hs hp).1, (h.count_mem_succ_merged hs hp).2]
    · rw [(h.mem_succ_merged hs hy hynot).1, (h.count_mem_succ hs hp hy hynot).2]
      exact exists_congr fun i => and_congr_right fun hi => hs.symm i (hp.mem i hi) y hy
    · rw [(h.count_mem_succ hs hp hx hxnot).1, (h.mem_succ_merged hs hx hxnot).2]
      exact exists_congr fun i => and_congr_right fun hi => hs.symm x hx i (hp.mem i hi)
    · rw [(h.mem_succ_old hs hp hx hxnot hy hynot).1, (h.mem_succ_old hs hp hy hynot hx hxnot).2]
      exact hs.symm x hx y hy
  edge x hx y hy hne := by
    rcases (h.mem_orderedBlks hs hp).mp hx with rfl | ⟨hx, hxnot⟩ <;>
      rcases (h.mem_orderedBlks hs hp).mp hy with rfl | ⟨hy, hynot⟩
    · exact absurd rfl hne
    · rw [(h.mem_succ_merged hs hy hynot).1, h.crosses_from hs hp hy hynot]
    · rw [(h.count_mem_succ hs hp hx hxnot).1, h.crosses_to hs hp hx hxnot]
    · rw [(h.mem_succ_old hs hp hx hxnot hy hynot).1, h.crosses_old hs hx hy]
      exact hs.edge x hx y hy hne
  enter x hx u hu v hv huv := by
    rcases (h.mem_orderedBlks hs hp).mp hx with rfl | ⟨hx, hxnot⟩
    · obtain ⟨i, hi, hvi⟩ := h.mem_bbs_merged.mp hv
      have hui : ∀ z ∈ p.members, u ∉ s.bbs z := fun z hz huz =>
        hu (h.mem_bbs_merged.mpr ⟨z, hz, huz⟩)
      rw [h.entry_merged]
      by_cases hhead : i = p.head
      · subst hhead
        exact hs.enter p.head (hp.mem _ hi) u (hui _ hi) v hvi huv
      · -- a member that is not the head is entered from the pattern only
        obtain ⟨z, hz, huz⟩ := hs.cover u
        have hzi : z ≠ i := fun heq => hui i hi (heq ▸ huz)
        have hmem := (hs.edge z hz i (hp.mem i hi) hzi).mpr ⟨u, huz, v, hvi, huv⟩
        have hpred := (hs.symm z hz i (hp.mem i hi)).mp hmem
        exact absurd huz (hui z (hp.inner i hi hhead z hpred))
    · obtain ⟨hbbs, hentry⟩ := h.bbs_old hs hx
      rw [hbbs] at hu hv
      rw [hentry]
      exact hs.enter x hx u hu v hv huv
  simple x hx bb htree := by
    rcases (h.mem_orderedBlks hs hp).mp hx with rfl | ⟨hx, hxnot⟩
    · rw [h.tree_merged] at htree
      cases p <;> exact absurd htree (by simp [Pattern.tree])
    · rw [h.tree x (hs.lt x hx).ne] at htree
      exact hs.simple x hx bb htree

include h hs hp in
/-- **Edges of blocks to themselves** stay right exactly where a pattern that descends goes
back to its entry. -/
theorem selfEdges_iff (hself : SelfEdges cfg s) : SelfEdges cfg t ↔
    (p.isLoop = false → Descends cfg s p.members → p.GoesBack cfg s) := by
  have hback : EntersItself cfg t s.count ↔ p.GoesBack cfg s := by
    rw [EntersItself, h.entry_merged]
    constructor
    · rintro ⟨u, hu, hedge⟩
      obtain ⟨i, hi, hui⟩ := h.mem_bbs_merged.mp hu
      exact ⟨i, hi, u, hui, hedge⟩
    · rintro ⟨i, hi, u, hui, hedge⟩
      exact ⟨u, h.mem_bbs_merged.mpr ⟨i, hi, hui⟩, hedge⟩
  constructor
  · intro ht hloop hdesc
    refine hback.mp (ht s.count ((h.mem_orderedBlks hs hp).mpr (.inl rfl)) ?_)
    exact (h.count_mem_succ_merged hs hp).1.mpr ⟨hloop, hdesc⟩
  · intro hcond x hx hxx
    rcases (h.mem_orderedBlks hs hp).mp hx with rfl | ⟨hx, hxnot⟩
    · obtain ⟨hloop, hdesc⟩ := (h.count_mem_succ_merged hs hp).1.mp hxx
      exact hback.mpr (hcond hloop hdesc)
    · obtain ⟨hbbs, hentry⟩ := h.bbs_old hs hx
      rw [EntersItself, hbbs, hentry]
      exact hself x hx ((h.mem_succ_old hs hp hx hxnot hx hxnot).1.mp hxx)

end Reduced

/-! ### The measure -/

/-- Twice the number of top-level blocks, and those with an edge to themselves. -/
def State.measure {n : ℕ} (s : State n) : ℕ :=
  2 * s.orderedBlks.length + s.orderedBlks.countP fun x => x ∈ s.succ x

/-- A pattern of more than one block, or of one block with an edge to itself. -/
def Pattern.Shrinks (s : State cfg.size) (p : Pattern) : Prop :=
  (∃ x ∈ p.members, x ≠ p.head) ∨ p.head ∈ s.succ p.head

theorem Reduced.measure_lt (h : Reduced cfg s p t) (hs : Graph cfg s) (hp : p.Valid s)
    (hshrinks : p.Shrinks s) : t.measure < s.measure := by
  have hperm := h.perm_orderedBlks hs hp
  have hlen := hperm.length_eq
  have hcount := hperm.countP_eq fun x => x ∈ t.succ x
  rw [List.length_cons] at hlen
  rw [List.countP_cons] at hcount
  have hlen0 := List.length_eq_length_filter_add (l := s.orderedBlks)
    (fun x => decide (x ∉ p.members.toFinset))
  have hcount0 := List.countP_eq_countP_filter_add s.orderedBlks (fun x => decide (x ∈ s.succ x))
    (fun x => decide (x ∉ p.members.toFinset))
  -- the blocks outside the pattern have edges to themselves as before
  have hsame : (s.orderedBlks.filter fun x => decide (x ∉ p.members.toFinset)).countP
      (fun x => decide (x ∈ t.succ x)) =
        (s.orderedBlks.filter fun x => decide (x ∉ p.members.toFinset)).countP
          fun x => decide (x ∈ s.succ x) := by
    refine List.countP_congr fun x hx => ?_
    obtain ⟨hx, hnot⟩ := List.mem_filter.mp hx
    have hnot' : x ∉ p.members := by simpa using hnot
    simpa using (h.mem_succ_old hs hp hx hnot' hx hnot').1
  have hin : ∀ x ∈ p.members, x ∈ s.orderedBlks.filter
      fun x => !decide (x ∉ p.members.toFinset) := fun x hx =>
    List.mem_filter.mpr ⟨hp.mem x hx, by simpa using hx⟩
  have hpos : 0 < (s.orderedBlks.filter fun x => !decide (x ∉ p.members.toFinset)).length :=
    List.length_pos_of_mem (hin p.head p.head_mem)
  unfold State.measure
  rw [hsame] at hcount
  by_cases htwo : ∃ x ∈ p.members, x ≠ p.head
  · obtain ⟨x, hx, hne⟩ := htwo
    have htwo : 1 < (s.orderedBlks.filter fun x => !decide (x ∉ p.members.toFinset)).length := by
      by_contra hle
      have hone : (s.orderedBlks.filter
          fun x => !decide (x ∉ p.members.toFinset)).length = 1 := by omega
      obtain ⟨a, ha⟩ := List.length_eq_one_iff.mp hone
      have h1 := hin x hx
      have h2 := hin p.head p.head_mem
      rw [ha, List.mem_singleton] at h1 h2
      exact hne (h1.trans h2.symm)
    have hself : (if decide (s.count ∈ t.succ s.count) = true then 1 else 0) ≤ 1 := by
      split <;> omega
    omega
  · have hedge := hshrinks.resolve_left htwo
    have hall : ∀ x ∈ p.members, x = p.head := fun x hx => by
      by_contra hne
      exact htwo ⟨x, hx, hne⟩
    have hno : ¬ Descends cfg s p.members := by
      rintro ⟨x, hx, y, hy, -, hlt⟩
      rw [hall x hx, hall y hy] at hlt
      exact absurd hlt (lt_irrefl _)
    have hself : (if decide (s.count ∈ t.succ s.count) = true then 1 else 0) = 0 := by
      refine if_neg fun hmem => hno ?_
      exact ((h.count_mem_succ_merged hs hp).1.mp (of_decide_eq_true hmem)).2
    have hgone : 0 < (s.orderedBlks.filter fun x => !decide (x ∉ p.members.toFinset)).countP
        fun x => decide (x ∈ s.succ x) :=
      List.countP_pos_iff.mpr ⟨p.head, hin p.head p.head_mem, by simpa using hedge⟩
    omega

end Quotient

/-! ### Finding a pattern -/

section Match

variable {cfg : Cfg} {addr : ℕ → ℕ} {s t : State cfg.size} {b : ℕ} {p : Pattern}

theorem mem_elems {set : Finset ℕ} (hlt : ∀ x ∈ set, x < s.count) (x : ℕ) :
    x ∈ s.elems set ↔ x ∈ set := by
  simp only [State.elems, List.mem_filter, List.mem_range, decide_eq_true_eq]
  exact and_iff_right_of_imp (hlt x)

theorem nodup_elems (set : Finset ℕ) : (s.elems set).Nodup := List.nodup_range.filter _

/-- The number of the elements of a set of blocks. -/
theorem card_of_elems {set : Finset ℕ} (hlt : ∀ x ∈ set, x < s.count) :
    set.card = (s.elems set).length := by
  rw [← List.toFinset_card_of_nodup (nodup_elems set)]
  congr 1
  ext x
  rw [List.mem_toFinset, mem_elems hlt]

theorem Graph.elems_succ (hs : Graph cfg s) (hb : b ∈ s.orderedBlks) (x : ℕ) :
    x ∈ s.elems (s.succ b) ↔ x ∈ s.succ b :=
  mem_elems (fun y hy => hs.lt y (hs.closed b hb y (.inl hy))) x

/-- A block whose only predecessor is `b`. -/
theorem Graph.pred_eq (hs : Graph cfg s) (hb : b ∈ s.orderedBlks) {x : ℕ} (hx : x ∈ s.succ b)
    (hcard : (s.pred x).card = 1) : s.pred x = {b} := by
  have hmem := (hs.symm b hb x (hs.closed b hb x (.inl hx))).mp hx
  obtain ⟨y, hy⟩ := Finset.card_eq_one.mp hcard
  rw [hy, Finset.mem_singleton] at hmem
  rw [hy, hmem]

/-- Members that are all entered from the head make a valid pattern. -/
theorem Graph.valid (hs : Graph cfg s) (hb : b ∈ s.orderedBlks) (hhead : p.head = b)
    (hmembers : ∀ x ∈ p.members, x = b ∨ x ∈ s.succ b ∧ (s.pred x).card = 1) : p.Valid s where
  mem x hx := by
    rcases hmembers x hx with rfl | ⟨hsucc, -⟩
    · exact hb
    · exact hs.closed b hb x (.inl hsucc)
  inner x hx hne y hy := by
    rcases hmembers x hx with rfl | ⟨hsucc, hcard⟩
    · exact absurd hhead.symm hne
    · rw [hs.pred_eq hb hsucc hcard, Finset.mem_singleton] at hy
      rw [hy, ← hhead]
      exact p.head_mem

theorem loopPattern_spec (hs : Graph cfg s) (hb : b ∈ s.orderedBlks)
    (h : loopPattern cfg s b = some p) : p = .selfLoop b ∧ b ∈ s.succ b := by
  have hself : ∀ x, loopBBs cfg s b = [x] → x = b := by
    intro x hx
    unfold loopBBs at hx
    rcases htree : s.tree b with bb | _ | _ | _ | _ <;> rw [htree] at hx
    · dsimp only at hx
      rcases hfind : cfg.loops.find? fun l => l.head? = some bb with _ | l
      · rw [hfind] at hx
        cases hx
      · rw [hfind] at hx
        have hhead : l.head? = some bb := by simpa using List.find?_some hfind
        have hrev : (l.map Fin.val).reverse = [x] := hx
        have hl : l.map Fin.val = [x] := by
          rw [← List.reverse_reverse (l.map Fin.val), hrev]
          rfl
        obtain ⟨a, rfl, hax⟩ := List.map_eq_singleton_iff.mp hl
        obtain rfl : a = bb := by simpa using hhead
        rw [← hax, hs.simple b hb a htree]
    all_goals
      dsimp only at hx
      split at hx
      · exact (List.singleton_inj.mp hx).symm
      · cases hx
  unfold loopPattern at h
  split at h
  · rename_i x hx
    obtain rfl := hself x hx
    split at h
    · rename_i hmem
      exact ⟨(Option.some_inj.mp h).symm, hmem⟩
    · cases h
  · cases h

theorem serialPattern_spec (h : serialPattern s b = some p) :
    ∃ c, p = .serial b c ∧ s.elems (s.succ b) = [c] ∧ (s.succ b).card = 1 ∧
      (s.pred c).card = 1 := by
  unfold serialPattern at h
  split at h
  · cases h
  rename_i hcard
  split at h
  · cases h
  split at h
  · rename_i c hc
    split at h
    · cases h
    · rename_i hnot
      rw [not_or] at hnot
      exact ⟨c, (Option.some_inj.mp h).symm, hc, not_not.mp hcard, not_not.mp hnot.1⟩
  · cases h

theorem isBranch_card {x : ℕ} (h : isBranch s x = true) :
    (s.succ x).card = 1 ∧ (s.pred x).card = 1 := by
  simp only [isBranch, Bool.and_eq_true, decide_eq_true_eq] at h
  exact ⟨h.1.1.1, h.1.1.2⟩

/-- The branches of an if have one predecessor and one successor each. -/
theorem ifSides_spec {T F : ℕ} {keep : Bool} (h : ifSides s b T F = some (p, keep)) :
    (p = .ifElse b T F ∨ p = .ifElse b F T) ∧ isBranch s T = true ∧ isBranch s F = true ∨
      p = .ifThen b T ∧ isBranch s T = true ∧ s.succ T = {F} ∨
      p = .ifThen b F ∧ isBranch s F = true ∧ s.succ F = {T} := by
  simp only [ifSides, Bool.and_eq_true, decide_eq_true_eq] at h
  split at h
  · rename_i hbranches
    split at h
    · exact .inl ⟨.inl (Prod.mk.inj (Option.some_inj.mp h)).1.symm, hbranches.1⟩
    split at h
    · exact .inl ⟨.inr (Prod.mk.inj (Option.some_inj.mp h)).1.symm, hbranches.1⟩
    · cases h
  split at h
  · rename_i hbranch
    exact .inr (.inl ⟨(Prod.mk.inj (Option.some_inj.mp h)).1.symm, hbranch⟩)
  split at h
  · rename_i hbranch
    exact .inr (.inr ⟨(Prod.mk.inj (Option.some_inj.mp h)).1.symm, hbranch⟩)
  · cases h

/-- An if starts from a block with two successors; their order does not matter. -/
theorem ifPattern_spec {keep : Bool} (h : ifPattern addr s b = some (p, keep)) :
    ∃ T F, (s.elems (s.succ b) = [T, F] ∨ s.elems (s.succ b) = [F, T]) ∧
      ifSides s b T F = some (p, keep) := by
  unfold ifPattern at h
  split at h
  · rename_i x y hxy
    split at h
    · cases h
    split at h
    · exact ⟨x, y, .inl hxy, h⟩
    · exact ⟨y, x, .inr hxy, h⟩
  · cases h

/-- A pattern that was found is valid, and replacing it gets somewhere. -/
theorem ifPattern_valid {keep : Bool} (hs : Graph cfg s) (hb : b ∈ s.orderedBlks)
    (h : ifPattern addr s b = some (p, keep)) : p.head = b ∧ p.Valid s ∧ p.Shrinks s := by
  obtain ⟨T, F, hlist, hsides⟩ := ifPattern_spec h
  have hmem : T ∈ s.succ b ∧ F ∈ s.succ b := by
    rw [← hs.elems_succ hb, ← hs.elems_succ hb]
    rcases hlist with hlist | hlist <;> rw [hlist] <;> simp
  have hne : T ≠ F := by
    have hnodup := nodup_elems (s := s) (s.succ b)
    rcases hlist with hlist | hlist <;> rw [hlist] at hnodup
    · simpa using hnodup
    · exact fun heq => by simp [heq] at hnodup
  -- a branch that is the block itself is an edge of the block to itself
  have hshrinks : ∀ x, p.head = b → x ∈ p.members → x ∈ s.succ b → p.Shrinks s := by
    intro x hhead hx hsucc
    by_cases hxb : x = b
    · exact .inr (by rw [hhead]; exact hxb ▸ hsucc)
    · exact .inl ⟨x, hx, by rwa [hhead]⟩
  rcases ifSides_spec hsides with ⟨hp, hT, hF⟩ | ⟨rfl, hT, -⟩ | ⟨rfl, hF, -⟩
  · have hhead : p.head = b := by rcases hp with rfl | rfl <;> rfl
    refine ⟨hhead, hs.valid hb hhead fun x hx => ?_, hshrinks T hhead ?_ hmem.1⟩
    · have hx' : x = b ∨ x = T ∨ x = F := by
        rcases hp with rfl | rfl
        · simpa [Pattern.members] using hx
        · simpa [Pattern.members, or_comm (a := x = F)] using hx
      rcases hx' with rfl | rfl | rfl
      · exact .inl rfl
      · exact .inr ⟨hmem.1, (isBranch_card hT).2⟩
      · exact .inr ⟨hmem.2, (isBranch_card hF).2⟩
    · rcases hp with rfl | rfl <;> simp [Pattern.members]
  · refine ⟨rfl, hs.valid hb rfl fun x hx => ?_, hshrinks T rfl (by simp [Pattern.members]) hmem.1⟩
    rcases List.mem_pair.mp hx with rfl | rfl
    · exact .inl rfl
    · exact .inr ⟨hmem.1, (isBranch_card hT).2⟩
  · refine ⟨rfl, hs.valid hb rfl fun x hx => ?_, hshrinks F rfl (by simp [Pattern.members]) hmem.2⟩
    rcases List.mem_pair.mp hx with rfl | rfl
    · exact .inl rfl
    · exact .inr ⟨hmem.2, (isBranch_card hF).2⟩

theorem serialPattern_valid (hs : Graph cfg s) (hb : b ∈ s.orderedBlks)
    (h : serialPattern s b = some p) : p.head = b ∧ p.Valid s ∧ p.Shrinks s := by
  obtain ⟨c, rfl, hlist, -, hcard⟩ := serialPattern_spec h
  have hmem : c ∈ s.succ b := by
    rw [← hs.elems_succ hb, hlist]
    exact List.mem_singleton_self _
  refine ⟨rfl, hs.valid hb rfl fun x hx => ?_, ?_⟩
  · rcases List.mem_pair.mp hx with rfl | rfl
    · exact .inl rfl
    · exact .inr ⟨hmem, hcard⟩
  · by_cases hcb : c = b
    · exact .inr (hcb ▸ hmem)
    · exact .inl ⟨c, by simp [Pattern.members], hcb⟩

theorem loopPattern_valid (hs : Graph cfg s) (hb : b ∈ s.orderedBlks)
    (h : loopPattern cfg s b = some p) : p = .selfLoop b ∧ p.Valid s ∧ p.Shrinks s := by
  obtain ⟨rfl, hself⟩ := loopPattern_spec hs hb h
  refine ⟨rfl, hs.valid hb rfl fun x hx => .inl (List.mem_singleton.mp hx), .inr hself⟩

/-! ### One call of `patternMatch` -/

/-- The top-level blocks are the same. -/
structure Like (s t : State cfg.size) : Prop where
  count : s.count ≤ t.count
  orderedBlks : t.orderedBlks = s.orderedBlks
  block : ∀ x ∈ s.orderedBlks, t.succ x = s.succ x ∧ t.pred x = s.pred x ∧ t.tree x = s.tree x

theorem Like.crosses (h : Like s t) {x y : ℕ} (hx : x ∈ s.orderedBlks)
    (hy : y ∈ s.orderedBlks) : Crosses cfg t x y ↔ Crosses cfg s x y := by
  rw [Crosses, State.bbs, State.bbs, (h.block x hx).2.2, (h.block y hy).2.2]
  rfl

theorem Like.graph (h : Like s t) (hs : Graph cfg s) : Graph cfg t := by
  have hbbs : ∀ x ∈ s.orderedBlks, t.bbs x = s.bbs x := fun x hx => by
    rw [State.bbs, (h.block x hx).2.2, State.bbs]
  have hentry : ∀ x ∈ s.orderedBlks, t.entry x = s.entry x := fun x hx => by
    rw [State.entry, (h.block x hx).2.2, State.entry]
  refine ⟨?_, ?_, ?_, ?_, ?_, ?_, ?_, ?_, ?_⟩ <;> rw [h.orderedBlks]
  · exact hs.nodup
  · exact fun x hx => (hs.lt x hx).trans_le h.count
  · intro bb
    obtain ⟨x, hx, hbb⟩ := hs.cover bb
    exact ⟨x, hx, by rwa [hbbs x hx]⟩
  · intro x hx y hy bb hbx hby
    rw [hbbs x hx] at hbx
    rw [hbbs y hy] at hby
    exact hs.disjoint x hx y hy bb hbx hby
  · intro x hx y hy
    rw [(h.block x hx).1, (h.block x hx).2.1] at hy
    exact hs.closed x hx y hy
  · intro x hx y hy
    rw [(h.block x hx).1, (h.block y hy).2.1]
    exact hs.symm x hx y hy
  · intro x hx y hy hne
    rw [(h.block x hx).1, h.crosses hx hy]
    exact hs.edge x hx y hy hne
  · intro x hx u hu v hv huv
    rw [hbbs x hx] at hu hv
    rw [hentry x hx]
    exact hs.enter x hx u hu v hv huv
  · intro x hx bb htree
    rw [(h.block x hx).2.2] at htree
    exact hs.simple x hx bb htree

theorem Like.selfEdges (h : Like s t) : SelfEdges cfg t ↔ SelfEdges cfg s := by
  unfold SelfEdges EntersItself State.bbs State.entry
  rw [h.orderedBlks]
  refine forall₂_congr fun x hx => ?_
  rw [(h.block x hx).1, (h.block x hx).2.2]

theorem Like.measure (h : Like s t) : t.measure = s.measure := by
  unfold State.measure
  rw [h.orderedBlks]
  congr 1
  refine List.countP_congr fun x hx => ?_
  rw [(h.block x hx).1]

theorem markCond_like (keep : Bool) : Like s (markCond s b p keep) where
  count := le_rfl
  orderedBlks := rfl
  block x _ := by
    by_cases hx : x = b
    · subst hx
      simp [markCond, State.succ, State.pred, State.tree]
    · simp [markCond, State.succ, State.pred, State.tree, hx]

/-- A block that was replaced before is taken for a pattern: nothing happens to the top-level
blocks. -/
theorem stale_like (hs : Graph cfg s) (hlt : b < s.count) (hnot : b ∉ s.orderedBlks)
    (hsucc : s.succ b = {b}) (hpred : s.pred b = {b}) :
    Like s (reduce cfg s (.serial b b)) := by
  have hred : Reduced cfg s (.serial b b) (reduce cfg s (.serial b b)) :=
    reduced (by simpa [Pattern.members] using hlt)
  have hmem : ∀ x, x ∈ (Pattern.serial b b).members ↔ x = b := by simp [Pattern.members]
  refine ⟨by rw [hred.count]; exact Nat.le_succ _, ?_, fun x hx => ?_⟩
  · rw [hred.orderedBlks]
    refine replaceLoop_none fun x hx hset => hnot ?_
    rwa [← (hmem x).mp (List.mem_toFinset.mp hset)]
  · have hxb : x ≠ b := fun heq => hnot (heq ▸ hx)
    have hxc := (hs.lt x hx).ne
    have hxm : x ∉ (Pattern.serial b b).members := fun h => hxb ((hmem x).mp h)
    refine ⟨?_, ?_, hred.tree x hxc⟩
    · ext y
      rw [hred.succ x hxm hxc y]
      simp only [hmem, exists_eq_left, hpred, Finset.mem_singleton, hxb, and_false, false_or]
      refine and_iff_left_of_imp fun _ => ?_
      rintro ⟨rfl, hx⟩
      rw [hpred, Finset.mem_singleton] at hx
      exact hxb hx
    · ext y
      rw [hred.pred x hxm hxc y]
      simp only [hmem, exists_eq_left, hsucc, Finset.mem_singleton, hxb, and_false, false_or]
      refine and_iff_left_of_imp fun _ => ?_
      rintro ⟨rfl, hx⟩
      rw [hsucc, Finset.mem_singleton] at hx
      exact hxb hx

variable (cfg addr s b) in
/-- The pattern that `patternMatch` replaces. -/
def pattern? : Option Pattern :=
  ((loopPattern cfg s b).or (serialPattern s b)).or ((ifPattern addr s b).map Prod.fst)

variable (cfg addr s b) in
/-- The pattern does not only descend in the order of the labels, it goes back to its entry. -/
def Proper : Prop :=
  ∀ p, pattern? cfg addr s b = some p → p.isLoop = false → Descends cfg s p.members →
    p.GoesBack cfg s

/-- What a call of `patternMatch` may do. -/
structure Step (cfg : Cfg) (addr : ℕ → ℕ) (s : State cfg.size) (b : ℕ) (t : State cfg.size) :
    Prop where
  graph : Graph cfg t
  self : SelfEdges cfg s → (SelfEdges cfg t ↔ Proper cfg addr s b)
  shrinks : t = s ∨ t.measure < s.measure ∧ s.numPatternMatch < t.numPatternMatch

theorem Reduced.step (h : Reduced cfg s p t) (hs : Graph cfg s) (hp : p.Valid s)
    (hshrinks : p.Shrinks s) (hpattern : pattern? cfg addr s b = some p) :
    Step cfg addr s b t where
  graph := h.graph hs hp
  self hself := by
    rw [h.selfEdges_iff hs hp hself, Proper, hpattern]
    simp
  shrinks := .inr ⟨h.measure_lt hs hp hshrinks, by rw [h.numPatternMatch]; exact Nat.lt_succ_self _⟩

/-- After a loop, the block that was replaced may be taken for a serial block of itself. -/
theorem stale_serialPattern {q : Pattern} (hs : Graph cfg s) (hb : b ∈ s.orderedBlks)
    (h : loopPattern cfg s b = some p) (hq : serialPattern (reduce cfg s p) b = some q) :
    q = .serial b b ∧ s.succ b = {b} ∧ s.pred b = {b} := by
  obtain ⟨rfl, hvalid, -⟩ := loopPattern_valid hs hb h
  have hself := (loopPattern_spec hs hb h).2
  have hred : Reduced cfg s (.selfLoop b) (reduce cfg s (.selfLoop b)) :=
    reduced fun x hx => hs.lt x (hvalid.mem x hx)
  obtain ⟨hsucc, hpred⟩ := hred.inside b (List.mem_singleton_self b)
  obtain ⟨c, rfl, hlist, hcard, hcardc⟩ := serialPattern_spec hq
  -- its only successor is itself
  have hone : s.succ b = {b} := by
    rw [hsucc] at hcard
    obtain ⟨x, hx⟩ := Finset.card_eq_one.mp hcard
    rw [hx, Finset.mem_singleton] at hself
    rw [hx, hself]
  have hlt : b < (reduce cfg s (.selfLoop b)).count := by
    rw [hred.count]
    exact Nat.lt_succ_of_lt (hs.lt b hb)
  obtain rfl : c = b := by
    have hmem : c ∈ (reduce cfg s (.selfLoop b)).elems ((reduce cfg s (.selfLoop b)).succ b) := by
      rw [hlist]
      exact List.mem_singleton_self c
    rw [mem_elems (fun y hy => ?_), hsucc, hone, Finset.mem_singleton] at hmem
    · exact hmem
    · rw [hsucc, hone, Finset.mem_singleton] at hy
      rwa [hy]
  refine ⟨rfl, hone, ?_⟩
  rw [hpred] at hcardc
  exact hs.pred_eq hb hself hcardc

/-- After a loop, the block that was replaced has no other pattern, or is taken for one once
more without effect. -/
theorem stale_serial (hs : Graph cfg s) (hb : b ∈ s.orderedBlks)
    (h : loopPattern cfg s b = some p) :
    Like (reduce cfg s p) (serialPatternMatch (reduce cfg s p) b) ∧
      (reduce cfg s p).numPatternMatch ≤
        (serialPatternMatch (reduce cfg s p) b).numPatternMatch ∧
      (serialPatternMatch (reduce cfg s p) b).succ b = s.succ b := by
  have hspec := fun q => stale_serialPattern (q := q) hs hb h
  obtain ⟨rfl, hvalid, -⟩ := loopPattern_valid hs hb h
  have hred : Reduced cfg s (.selfLoop b) (reduce cfg s (.selfLoop b)) :=
    reduced fun x hx => hs.lt x (hvalid.mem x hx)
  have hin : b ∈ (Pattern.selfLoop b).members := List.mem_singleton_self b
  obtain ⟨hsucc, hpred⟩ := hred.inside b hin
  have hgraph := hred.graph hs hvalid
  have hnot : b ∉ (reduce cfg s (.selfLoop b)).orderedBlks := by
    rw [hred.mem_orderedBlks hs hvalid]
    rintro (heq | ⟨-, hno⟩)
    · exact (hs.lt b hb).ne heq
    · exact hno hin
  unfold serialPatternMatch
  rcases hserial : serialPattern (reduce cfg s (.selfLoop b)) b with _ | q
  · exact ⟨⟨le_rfl, rfl, fun _ _ => ⟨rfl, rfl, rfl⟩⟩, le_rfl, hsucc⟩
  · obtain ⟨rfl, hone, honep⟩ := hspec q hserial
    have hlt : b < (reduce cfg s (.selfLoop b)).count := by
      rw [hred.count]
      exact Nat.lt_succ_of_lt (hs.lt b hb)
    have hred' : Reduced cfg (reduce cfg s (.selfLoop b)) (.serial b b)
        (reduce cfg (reduce cfg s (.selfLoop b)) (.serial b b)) :=
      reduced (by simpa [Pattern.members] using hlt)
    refine ⟨stale_like hgraph hlt hnot (hsucc.trans hone) (hpred.trans honep), ?_, ?_⟩
    · dsimp only
      rw [hred'.numPatternMatch]
      exact Nat.le_succ _
    · exact (hred'.inside b (by simp [Pattern.members])).1.trans hsucc

/-- After a loop, the block that was replaced is not the start of an if. -/
theorem stale_if (hs : Graph cfg s) (hb : b ∈ s.orderedBlks) (h : loopPattern cfg s b = some p) :
    ifPattern addr (serialPatternMatch (reduce cfg s p) b) b = none := by
  obtain ⟨hlike, -, hsucc⟩ := stale_serial hs hb h
  obtain ⟨rfl, hvalid, -⟩ := loopPattern_valid hs hb h
  have hself := (loopPattern_spec hs hb h).2
  have hred : Reduced cfg s (.selfLoop b) (reduce cfg s (.selfLoop b)) :=
    reduced fun x hx => hs.lt x (hvalid.mem x hx)
  have hmem : ∀ x, x ∈ (Pattern.selfLoop b).members ↔ x = b := by simp [Pattern.members]
  generalize serialPatternMatch (reduce cfg s (.selfLoop b)) b = u at hlike hsucc
  by_contra hsome
  obtain ⟨⟨q, keep⟩, hq⟩ := Option.ne_none_iff_exists'.mp hsome
  obtain ⟨T, F, hlist, hsides⟩ := ifPattern_spec hq
  have hlt : ∀ x ∈ u.succ b, x < u.count := by
    intro x hx
    rw [hsucc] at hx
    have h1 := hs.lt x (hs.closed b hb x (.inl hx))
    have h2 := hlike.count
    rw [hred.count] at h2
    omega
  have hpair : ∀ x, x ∈ s.succ b ↔ x = T ∨ x = F := by
    intro x
    rw [← hsucc, ← mem_elems hlt]
    rcases hlist with hlist | hlist <;> rw [hlist] <;> simp [or_comm]
  have hne : T ≠ F := by
    have hnodup := nodup_elems (s := u) (u.succ b)
    rcases hlist with hlist | hlist <;> rw [hlist] at hnodup
    · simpa using hnodup
    · exact fun heq => by simp [heq] at hnodup
  have htwo : ¬ isBranch u b = true := by
    intro hbranch
    have hcard := (isBranch_card hbranch).1
    rw [card_of_elems hlt] at hcard
    rcases hlist with hlist | hlist <;> rw [hlist] at hcard <;> simp at hcard
  -- no block has an edge to the block that was replaced
  have hgone : ∀ x ∈ s.succ b, x ≠ b → b ∉ u.succ x := by
    intro x hx hxb
    have hxo := hs.closed b hb x (.inl hx)
    have hxm : x ∉ (Pattern.selfLoop b).members := fun hin => hxb ((hmem x).mp hin)
    have hxt := (hred.mem_orderedBlks hs hvalid).mpr (.inr ⟨hxo, hxm⟩)
    rw [(hlike.block x hxt).1, hred.succ_old hs hvalid hxo hxm]
    rintro (⟨heq, -⟩ | ⟨-, hno⟩)
    · exact (hs.lt b hb).ne heq
    · exact hno ((hmem b).mpr rfl)
  rcases ifSides_spec hsides with ⟨-, hT, hF⟩ | ⟨-, hT, hone⟩ | ⟨-, hF, hone⟩
  · rcases (hpair b).mp hself with rfl | rfl
    · exact htwo hT
    · exact htwo hF
  · rcases (hpair b).mp hself with rfl | rfl
    · exact htwo hT
    · exact hgone T ((hpair T).mpr (.inl rfl)) hne (by rw [hone]; exact Finset.mem_singleton_self _)
  · rcases (hpair b).mp hself with rfl | rfl
    · exact hgone F ((hpair F).mpr (.inr rfl)) hne.symm
        (by rw [hone]; exact Finset.mem_singleton_self _)
    · exact htwo hF

/-- After a serial block, the block that was replaced has one successor. -/
theorem serial_if (hs : Graph cfg s) (hb : b ∈ s.orderedBlks) (h : serialPattern s b = some p) :
    ifPattern addr (reduce cfg s p) b = none := by
  obtain ⟨hhead, hvalid, -⟩ := serialPattern_valid hs hb h
  have hred : Reduced cfg s p (reduce cfg s p) := reduced fun x hx => hs.lt x (hvalid.mem x hx)
  have hsucc := (hred.inside b (hhead ▸ p.head_mem)).1
  obtain ⟨c, -, -, hcard, -⟩ := serialPattern_spec h
  by_contra hsome
  obtain ⟨⟨q, keep⟩, hq⟩ := Option.ne_none_iff_exists'.mp hsome
  obtain ⟨T, F, hlist, -⟩ := ifPattern_spec hq
  have hlt : ∀ x ∈ (reduce cfg s p).succ b, x < (reduce cfg s p).count := by
    intro x hx
    rw [hsucc] at hx
    rw [hred.count]
    exact Nat.lt_succ_of_lt (hs.lt x (hs.closed b hb x (.inl hx)))
  rw [← hsucc, card_of_elems hlt] at hcard
  rcases hlist with hlist | hlist <;> rw [hlist] at hcard <;> simp at hcard

theorem Like.pattern (h : Like s t) (hp : p.Valid s) :
    p.Valid t ∧ (p.Shrinks t ↔ p.Shrinks s) ∧
      (Descends cfg t p.members ↔ Descends cfg s p.members) ∧
      (p.GoesBack cfg t ↔ p.GoesBack cfg s) := by
  have hblock := fun x hx => h.block x (hp.mem x hx)
  have hhead := hblock p.head p.head_mem
  refine ⟨⟨fun x hx => ?_, fun x hx hne y hy => ?_⟩, ?_, ?_, ?_⟩
  · rw [h.orderedBlks]
    exact hp.mem x hx
  · rw [(hblock x hx).2.1] at hy
    exact hp.inner x hx hne y hy
  · unfold Pattern.Shrinks
    rw [hhead.1]
  · exact descends_congr (fun x hx => (hblock x hx).1) fun x hx => (hblock x hx).2.2
  · unfold Pattern.GoesBack State.bbs State.entry
    rw [hhead.2.2]
    refine exists_congr fun x => and_congr_right fun hx => ?_
    rw [(hblock x hx).2.2]

/-- **One call of `patternMatch`** on a top-level block. -/
theorem patternMatch_step (hs : Graph cfg s) (hb : b ∈ s.orderedBlks) :
    Step cfg addr s b (patternMatch addr s b) := by
  unfold patternMatch
  rcases hloop : loopPattern cfg s b with _ | p
  · have hloop' : loopPatternMatch s b = s := by rw [loopPatternMatch, hloop]
    rw [hloop']
    rcases hserial : serialPattern s b with _ | p
    · have hserial' : serialPatternMatch s b = s := by rw [serialPatternMatch, hserial]
      rw [hserial', ifPatternMatch]
      rcases hif : ifPattern addr s b with _ | ⟨p, keep⟩
      · have hnone : pattern? cfg addr s b = none := by simp [pattern?, hloop, hserial, hif]
        exact ⟨hs, fun hself => iff_of_true hself (by simp [Proper, hnone]), .inl rfl⟩
      · obtain ⟨-, hvalid, hshrinks⟩ := ifPattern_valid hs hb hif
        have hlike : Like s (markCond s b p keep) := markCond_like keep
        have hs' := hlike.graph hs
        obtain ⟨hvalid', hshrinks', hdesc, hback⟩ := hlike.pattern hvalid
        have hred : Reduced cfg (markCond s b p keep) p (reduce cfg (markCond s b p keep) p) :=
          reduced fun x hx => hs'.lt x (hvalid'.mem x hx)
        have hpattern : pattern? cfg addr s b = some p := by simp [pattern?, hloop, hserial, hif]
        refine ⟨hred.graph hs' hvalid', fun hself => ?_, .inr ⟨?_, ?_⟩⟩
        · rw [hred.selfEdges_iff hs' hvalid' (hlike.selfEdges.mpr hself), Proper, hpattern, hdesc,
            hback]
          simp
        · rw [← hlike.measure]
          exact hred.measure_lt hs' hvalid' (hshrinks'.mpr hshrinks)
        · dsimp only
          rw [hred.numPatternMatch]
          exact Nat.lt_succ_self _
    · obtain ⟨-, hvalid, hshrinks⟩ := serialPattern_valid hs hb hserial
      have hred : Reduced cfg s p (reduce cfg s p) := reduced fun x hx => hs.lt x (hvalid.mem x hx)
      have hserial' : serialPatternMatch s b = reduce cfg s p := by
        rw [serialPatternMatch, hserial]
      rw [hserial', ifPatternMatch, serial_if hs hb hserial]
      exact hred.step hs hvalid hshrinks (by simp [pattern?, hloop, hserial])
  · obtain ⟨-, hvalid, hshrinks⟩ := loopPattern_valid hs hb hloop
    have hred : Reduced cfg s p (reduce cfg s p) := reduced fun x hx => hs.lt x (hvalid.mem x hx)
    have hloop' : loopPatternMatch s b = reduce cfg s p := by rw [loopPatternMatch, hloop]
    have hstep : Step cfg addr s b (reduce cfg s p) :=
      hred.step hs hvalid hshrinks (by simp [pattern?, hloop])
    obtain ⟨hlike, hnum, -⟩ := stale_serial hs hb hloop
    rw [hloop', ifPatternMatch, stale_if hs hb hloop]
    refine ⟨hlike.graph hstep.graph, fun hself => ?_, .inr ⟨?_, ?_⟩⟩
    · rw [hlike.selfEdges]
      exact hstep.self hself
    · rw [hlike.measure]
      exact hred.measure_lt hs hvalid hshrinks
    · rw [hred.numPatternMatch] at hnum
      exact hnum

end Match

/-! ### Runs -/

section Runs

variable {cfg : Cfg} (addr : ℕ → ℕ)

/-- What moves the iterator: it is set to a place, or the block at its place is visited. -/
inductive Move where
  | seek (i : ℕ)
  | visit

def move (s : State cfg.size) : Move → Option (State cfg.size)
  | .seek i => some { s with orderIter := i }
  | .visit => s.orderedBlks[s.orderIter]?.map fun b =>
    let s := patternMatch addr s b
    { s with orderIter := s.orderIter + 1 }

/-- A visit finds no pattern, or a proper one. -/
def ProperMove (s : State cfg.size) (m : Move) : Prop :=
  m = .visit → ∀ b, s.orderedBlks[s.orderIter]? = some b → Proper cfg addr s b

variable {addr} {s t : State cfg.size}

theorem seek_like (s : State cfg.size) (i : ℕ) : Like s { s with orderIter := i } where
  count := le_rfl
  orderedBlks := rfl
  block _ _ := ⟨rfl, rfl, rfl⟩

theorem move_visit : move addr s .visit = some t ↔
    ∃ b, s.orderedBlks[s.orderIter]? = some b ∧
      { patternMatch addr s b with orderIter := (patternMatch addr s b).orderIter + 1 } = t := by
  simp only [move, Option.map_eq_some_iff]

theorem move_graph {m : Move} (h : move addr s m = some t) (hs : Graph cfg s) : Graph cfg t := by
  cases m with
  | seek i =>
    obtain rfl := Option.some.inj h
    exact (seek_like s i).graph hs
  | visit =>
    obtain ⟨b, hb, rfl⟩ := move_visit.mp h
    have hstep : Step cfg addr s b _ := patternMatch_step hs (List.mem_of_getElem? hb)
    exact (seek_like _ _).graph hstep.graph

theorem move_selfEdges {m : Move} (h : move addr s m = some t) (hs : Graph cfg s)
    (hself : SelfEdges cfg s) : SelfEdges cfg t ↔ ProperMove addr s m := by
  cases m with
  | seek i =>
    obtain rfl := Option.some.inj h
    exact iff_of_true ((seek_like s i).selfEdges.mpr hself) fun hm => nomatch hm
  | visit =>
    obtain ⟨b, hb, rfl⟩ := move_visit.mp h
    have hstep : Step cfg addr s b _ := patternMatch_step hs (List.mem_of_getElem? hb)
    rw [(seek_like _ _).selfEdges, hstep.self hself]
    constructor
    · intro hproper _ b' hb'
      rwa [← Option.some.inj (hb.symm.trans hb')]
    · exact fun hproper => hproper rfl b hb

variable (cfg) in
/-- At the start every basic block is a top-level block. -/
theorem graph_initializeBlocks : Graph cfg (initializeBlocks cfg) := by
  have hlt : ∀ x, x ∈ (initializeBlocks cfg).orderedBlks ↔ x < cfg.size :=
    fun x => List.mem_range
  have htree : ∀ x (h : x < cfg.size), (initializeBlocks cfg).tree x = .single ⟨x, h⟩ := by
    intro x h
    simp [State.tree, initializeBlocks, simpleBlock, h]
  have hbbs : ∀ x (h : x < cfg.size), (initializeBlocks cfg).bbs x = [⟨x, h⟩] := by
    intro x h
    rw [State.bbs, htree x h, Tree.sequence]
  have hsucc : ∀ x (h : x < cfg.size) y,
      y ∈ (initializeBlocks cfg).succ x ↔ ∃ h' : y < cfg.size, ⟨y, h'⟩ ∈ cfg.successors ⟨x, h⟩ := by
    intro x h y
    simp [State.succ, initializeBlocks, simpleBlock, h, Fin.exists_iff]
  have hpred : ∀ x (h : x < cfg.size) y,
      y ∈ (initializeBlocks cfg).pred x ↔ ∃ h' : y < cfg.size, ⟨x, h⟩ ∈ cfg.successors ⟨y, h'⟩ := by
    intro x h y
    simp [State.pred, initializeBlocks, simpleBlock, h, Fin.exists_iff]
  refine ⟨List.nodup_range, fun x hx => (hlt x).mp hx, fun bb => ?_, ?_, ?_, ?_, ?_, ?_, ?_⟩ <;>
    simp only [hlt]
  · refine ⟨bb, bb.isLt, ?_⟩
    rw [hbbs bb bb.isLt]
    exact List.mem_singleton_self _
  · intro x hx y hy bb hbx hby
    rw [hbbs x hx, List.mem_singleton] at hbx
    rw [hbbs y hy, List.mem_singleton] at hby
    exact congrArg Fin.val (hbx.symm.trans hby)
  · intro x hx y hy
    rw [hsucc x hx, hpred x hx] at hy
    rcases hy with ⟨h, -⟩ | ⟨h, -⟩ <;> exact h
  · intro x hx y hy
    rw [hsucc x hx, hpred y hy]
    exact ⟨fun ⟨_, h⟩ => ⟨hx, h⟩, fun ⟨_, h⟩ => ⟨hy, h⟩⟩
  · intro x hx y hy _
    rw [hsucc x hx, Crosses, hbbs x hx, hbbs y hy]
    simp [hy]
  · intro x hx u _ v hv _
    rw [hbbs x hx, List.mem_singleton] at hv
    rw [hv, State.entry, htree x hx, Tree.getEntry]
  · intro x hx bb h
    rw [htree x hx, Tree.single.injEq] at h
    rw [← h]

variable (cfg) in
theorem selfEdges_initializeBlocks : SelfEdges cfg (initializeBlocks cfg) := by
  intro x hx hself
  have hlt : x < cfg.size := List.mem_range.mp hx
  have hedge : (⟨x, hlt⟩ : Fin cfg.size) ∈ cfg.successors ⟨x, hlt⟩ := by
    simpa [State.succ, initializeBlocks, simpleBlock, hlt, Fin.exists_iff] using hself
  refine ⟨⟨x, hlt⟩, ?_, ?_⟩
  · simp [State.bbs, State.tree, initializeBlocks, simpleBlock, hlt, Tree.sequence]
  · simpa [State.entry, State.tree, initializeBlocks, simpleBlock, hlt, Tree.getEntry] using hedge

variable (addr) in
/-- The inner loop ends: a visit lowers the measure, or leaves the state and moves on. -/
theorem scan_ends (s : State cfg.size) (hs : Graph cfg s) :
    ∃ ms t N, Transition.exec (move addr) s ms = some t ∧ Graph cfg t ∧
      t.measure ≤ s.measure ∧ (t.numPatternMatch = s.numPatternMatch ∨ t.measure < s.measure) ∧
      ∀ n, N ≤ n → scan addr n s = some t := by
  by_cases hlen : 1 < s.orderedBlks.length
  · rcases hb : s.orderedBlks[s.orderIter]? with _ | b
    · refine ⟨[], s, 1, rfl, hs, le_rfl, .inl rfl, fun n hn => ?_⟩
      obtain ⟨k, rfl⟩ := Nat.exists_eq_add_of_le' hn
      simp only [scan, if_pos hlen, hb]
    · have hstep : Step cfg addr s b _ := patternMatch_step hs (List.mem_of_getElem? hb)
      have hlike := seek_like (patternMatch addr s b) ((patternMatch addr s b).orderIter + 1)
      have hmeasure := hlike.measure
      obtain ⟨ms, t, N, hrun, ht, hle, hnum, hscan⟩ := scan_ends _ (hlike.graph hstep.graph)
      rw [hmeasure] at hle hnum
      have hvisit : move addr s .visit = some _ := move_visit.mpr ⟨b, hb, rfl⟩
      refine ⟨.visit :: ms, t, N + 1, ?_, ht, ?_, ?_, fun n hn => ?_⟩
      · exact Transition.exec_cons_eq_some.mpr ⟨_, hvisit, hrun⟩
      · rcases hstep.shrinks with heq | ⟨hlt, -⟩
        · rwa [heq] at hle
        · exact hle.trans hlt.le
      · rcases hstep.shrinks with heq | ⟨hlt, -⟩
        · rwa [heq] at hnum
        · exact .inr (hle.trans_lt hlt)
      · obtain ⟨k, rfl⟩ := Nat.exists_eq_add_of_le' hn
        rw [← Nat.add_assoc, scan, if_pos hlen, hb]
        exact hscan _ (by omega)
  · refine ⟨[], s, 1, rfl, hs, le_rfl, .inl rfl, fun n hn => ?_⟩
    obtain ⟨k, rfl⟩ := Nat.exists_eq_add_of_le' hn
    simp only [scan, if_neg hlen]
termination_by (s.measure, s.orderedBlks.length - s.orderIter)
decreasing_by
  rcases hstep.shrinks with heq | ⟨hlt, -⟩
  · -- nothing was found: the iterator goes on
    have hiter := (List.getElem?_eq_some_iff.mp hb).1
    refine Prod.Lex.right' _ (by rw [hmeasure, heq]) ?_
    rw [heq]
    show s.orderedBlks.length - (s.orderIter + 1) < s.orderedBlks.length - s.orderIter
    omega
  · exact Prod.Lex.left _ _ (by rwa [hmeasure])

variable (addr) in
/-- The outer loop ends. -/
theorem blockPatternMatch_ends (k : ℕ) : ∀ (s : State cfg.size), Graph cfg s → s.measure ≤ k →
    ∃ ms t N, Transition.exec (move addr) s ms = some t ∧
      ∀ n, N ≤ n → blockPatternMatch addr n s = some t := by
  induction k using Nat.strong_induction_on with
  | _ k ih =>
    intro s hs hk
    have hseek := seek_like s 0
    obtain ⟨ms, t, N, hrun, ht, hle, hnum, hscan⟩ := scan_ends addr _ (hseek.graph hs)
    rw [hseek.measure] at hle hnum
    have hrun' : Transition.exec (move addr) s (.seek 0 :: ms) = some t :=
      Transition.exec_cons_eq_some.mpr ⟨_, rfl, hrun⟩
    by_cases hstop : t.numPatternMatch = s.numPatternMatch ∨ t.orderedBlks.length ≤ 1
    · refine ⟨_, t, N + 1, hrun', fun n hn => ?_⟩
      obtain ⟨j, rfl⟩ := Nat.exists_eq_add_of_le' hn
      rw [← Nat.add_assoc, blockPatternMatch, hscan _ (by omega), Option.bind_some, if_pos hstop]
    · -- a pattern was replaced, so the measure dropped
      have hlt := hnum.resolve_left fun h => hstop (.inl h)
      obtain ⟨ms', u, M, hrun'', hmatch⟩ := ih t.measure (by omega) t ht le_rfl
      refine ⟨.seek 0 :: ms ++ ms', u, max N M + 1, ?_, fun n hn => ?_⟩
      · exact Transition.exec_append_eq_some.mpr ⟨t, hrun', hrun''⟩
      · obtain ⟨j, rfl⟩ := Nat.exists_eq_add_of_le' hn
        rw [← Nat.add_assoc, blockPatternMatch, hscan _ (by omega), Option.bind_some,
          if_neg hstop]
        exact hmatch _ (by omega)

/-- **The reduced graph** is a quotient of the control flow graph after every run of visits, the
edges of blocks to themselves go back to the entry as long as every pattern is proper, and
`blockPatternMatch` ends with every basic block in exactly one top-level block. -/
theorem structurizer_quotient_iff (cfg : Cfg) (addr : ℕ → ℕ) :
    (∀ ms t, Transition.exec (move addr) (initializeBlocks cfg) ms = some t →
      Graph cfg t ∧
      ((∀ pre post m, ms = pre ++ post →
          Transition.exec (move addr) (initializeBlocks cfg) pre = some m → SelfEdges cfg m) ↔
        Transition.StepsMeet (move addr) (ProperMove addr) (initializeBlocks cfg) ms)) ∧
    ∃ ms t N, Transition.exec (move addr) (initializeBlocks cfg) ms = some t ∧
      (∀ n, N ≤ n → blockPatternMatch addr n (initializeBlocks cfg) = some t) ∧
      ∀ bb, ∃! x, x ∈ t.orderedBlks ∧ bb ∈ t.bbs x := by
  have hgraph : ∀ ms t, Transition.exec (move addr) (initializeBlocks cfg) ms = some t →
      Graph cfg t := fun ms t hrun =>
    Transition.exec_invariant (fun h hs => move_graph h hs) hrun (graph_initializeBlocks cfg)
  refine ⟨fun ms t hrun => ⟨hgraph ms t hrun, ?_⟩, ?_⟩
  · have hiff := Transition.exec_invariant_iff
      (I := fun s => Graph cfg s ∧ SelfEdges cfg s) (C := ProperMove addr)
      (fun h hs => (and_iff_right (move_graph h hs.1)).trans (move_selfEdges h hs.1 hs.2))
      hrun ⟨graph_initializeBlocks cfg, selfEdges_initializeBlocks cfg⟩
    rw [← hiff]
    refine forall₅_congr fun pre post m hsplit hm => ?_
    exact (and_iff_right (hgraph pre m hm)).symm
  · obtain ⟨ms, t, N, hrun, hends⟩ :=
      blockPatternMatch_ends addr _ _ (graph_initializeBlocks cfg) le_rfl
    refine ⟨ms, t, N, hrun, hends, fun bb => ?_⟩
    have ht := hgraph ms t hrun
    obtain ⟨x, hx, hbb⟩ := ht.cover bb
    exact ⟨x, ⟨hx, hbb⟩, fun y hy => ht.disjoint y hy.1 x hx bb hy.2 hbb⟩

/-- Two blocks in a row, the second one laid out before the first. -/
def outOfOrder : Cfg where
  size := 5
  size_pos := by decide
  label := Fin.val
  label_injective := Fin.val_injective
  successors := ![{1, 3}, {4}, {4}, {2}, ∅]
  barrier _ := false
  insnNum _ := 1
  loops := []

/-- The driver comes to the block 3, which becomes one with the block 2: the new block has an
edge to itself, and nothing goes back to its entry. -/
theorem outOfOrder_self_edge :
    ∃ t, Transition.exec (move id) (initializeBlocks outOfOrder)
        [.visit, .visit, .visit, .visit] = some t ∧ ¬ SelfEdges outOfOrder t :=
  ⟨(Transition.exec (move id) (initializeBlocks outOfOrder)
    [.visit, .visit, .visit, .visit]).get (by decide +kernel), (Option.some_get _).symm,
    fun h => absurd (h 5 (by decide +kernel) (by decide +kernel))
      (by unfold EntersItself; decide +kernel)⟩

end Runs

end Ir.Structurizer
