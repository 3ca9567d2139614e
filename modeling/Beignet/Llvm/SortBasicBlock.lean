/-
The order of the basic blocks, `GenWriter::sortBasicBlock` of
`llvm/llvm_gen_backend.cpp`.

The writer lists the blocks of a function in post-order, the exits of a loop before
its other blocks, and then rearranges the function accordingly.  For the older
releases of the library it takes the listed blocks out of the function and appends
them in reverse; for the newer ones it moves each of them in front of the first
block.

* `removeAndAppend_eq`, `moveToFront_eq` — the two rearrangements in closed form:
  the second one leaves the blocks in post-order, entry last;
* `reversePostOrder_edge` — in reverse post-order a block comes before its
  successors, unless it is on a cycle with them;
* `sortBasicBlock_correct_iff` — the two variants agree and give the order that the
  comment over the function asks for exactly when there is only one block.
-/
import Beignet.Lib.DepthFirst

namespace Llvm.GenWriter

open Relation (ReflTransGen TransGen)

/-- The control flow graph of a function with its loops; the blocks are numbered in the
order they have in the function, so the entry block is block 0. -/
structure Cfg where
  /-- number of blocks besides the entry -/
  others : ℕ
  /-- the successors of the terminator -/
  successors : Fin (others + 1) → List (Fin (others + 1))
  successors_le : ∀ b, (successors b).length ≤ 2
  /-- `LoopInfo`: the blocks of each loop -/
  loops : List (Finset (Fin (others + 1)))

namespace Cfg

variable (F : Cfg)

abbrev Block := Fin (F.others + 1)

def getEntryBlock : F.Block := 0

/-- The blocks in the order of the function. -/
def blocks : List F.Block := List.finRange (F.others + 1)

/-- The innermost loop around a block. -/
def getLoopFor (b : F.Block) : Option (Finset F.Block) :=
  (F.loops.filter fun loop => b ∈ loop).argmin Finset.card

/-- The children of the block on top of the stack in the order in which they are
tried: the exit of a loop comes first. -/
def children (top : F.Block) : List F.Block :=
  match F.successors top with
  | [child0, child1] =>
    match F.getLoopFor top with
    | some loop => if child0 ∈ loop ∧ child1 ∉ loop then [child1, child0] else [child0, child1]
    | none => [child0, child1]
  | cs => cs

/-- The vector that the search fills. -/
def sorted : List F.Block := DepthFirst.postorder F.children F.getEntryBlock

end Cfg

/-! ### The two rearrangements -/

variable {α : Type} [DecidableEq α]

/-- `removeFromParent` for each listed block, then `push_back` in reverse. -/
def removeAndAppend (sorted bbList : List α) : List α :=
  sorted.foldl List.erase bbList ++ sorted.reverse

/-- Insert `b` immediately before `pos`. -/
def insertBefore (b pos : α) : List α → List α
  | [] => [b]
  | x :: l => if x = pos then b :: x :: l else x :: insertBefore b pos l

/-- `b->moveBefore(pos)`. -/
def moveBefore (b pos : α) (bbList : List α) : List α :=
  if b = pos then bbList else insertBefore b pos (bbList.erase b)

/-- Each listed block, last to first, is moved before the front of the function. -/
def moveToFront (sorted bbList : List α) : List α :=
  sorted.reverse.foldl (fun l b => match l.head? with
    | some front => moveBefore b front l
    | none => l) bbList

/-- The function after `sortBasicBlock` with a library before version 17. -/
def sortBasicBlock16 (F : Cfg) : List F.Block := removeAndAppend F.sorted F.blocks

/-- The function after `sortBasicBlock` with version 17 or later. -/
def sortBasicBlock17 (F : Cfg) : List F.Block := moveToFront F.sorted F.blocks

theorem foldl_erase {bs l : List α} (hl : l.Nodup) :
    bs.foldl List.erase l = l.filter fun b => b ∉ bs := by
  induction bs generalizing l with
  | nil => simp
  | cons b bs ih =>
    rw [List.foldl_cons, ih (hl.erase b), hl.erase_eq_filter, List.filter_filter]
    refine List.filter_congr fun x _ => ?_
    by_cases hx : x = b
    · simp [hx]
    · simp [hx]

theorem removeAndAppend_eq {bs l : List α} (hl : l.Nodup) :
    removeAndAppend bs l = (l.filter fun b => b ∉ bs) ++ bs.reverse := by
  rw [removeAndAppend, foldl_erase hl]

theorem moveBefore_head {b x : α} {l : List α} (hl : (x :: l).Nodup) :
    moveBefore b x (x :: l) = b :: (x :: l).erase b := by
  rw [moveBefore]
  split_ifs with h
  · subst h
    simp
  · rw [List.erase_cons_tail (by simpa using Ne.symm h), insertBefore, if_pos rfl]

/-- Moving blocks to the front one by one reverses them. -/
theorem foldl_moveBefore {bs l : List α} (hbs : bs.Nodup) (hl : l.Nodup) (hsub : bs ⊆ l) :
    bs.foldl (fun l b => match l.head? with
      | some front => moveBefore b front l
      | none => l) l = bs.reverse ++ l.filter fun b => b ∉ bs := by
  induction bs generalizing l with
  | nil => simp
  | cons b bs ih =>
    obtain ⟨hb, hbs⟩ := List.nodup_cons.mp hbs
    have hbl : b ∈ l := hsub (by simp)
    rcases l with _ | ⟨x, l⟩
    · cases hbl
    · have hnext : (b :: (x :: l).erase b).Nodup := by
        refine List.nodup_cons.mpr ⟨?_, hl.erase b⟩
        exact hl.not_mem_erase
      have hsub' : bs ⊆ b :: (x :: l).erase b := by
        intro c hc
        have hcb : c ≠ b := fun h => hb (h ▸ hc)
        exact List.mem_cons_of_mem _ ((List.mem_erase_of_ne hcb).mpr (hsub (by simp [hc])))
      rw [List.foldl_cons, List.head?_cons]
      simp only
      rw [moveBefore_head hl, ih hbs hnext hsub', List.reverse_cons, List.append_assoc,
        List.filter_cons_of_pos (by simpa using hb), List.singleton_append, hl.erase_eq_filter,
        List.filter_filter]
      congr 2
      refine List.filter_congr fun c _ => ?_
      by_cases hc : c = b
      · simp [hc]
      · simp [hc]

theorem moveToFront_eq {bs l : List α} (hbs : bs.Nodup) (hl : l.Nodup) (hsub : bs ⊆ l) :
    moveToFront bs l = bs ++ l.filter fun b => b ∉ bs := by
  rw [moveToFront, foldl_moveBefore (List.nodup_reverse.mpr hbs) hl
    (fun b hb => hsub (List.mem_reverse.mp hb)), List.reverse_reverse]
  simp only [List.mem_reverse]

/-! ### What the order is for -/

namespace Cfg

variable (F : Cfg)

def Edge (u v : F.Block) : Prop := v ∈ F.successors u

def Reachable (b : F.Block) : Prop := ReflTransGen F.Edge F.getEntryBlock b

/-- There is no way from the entry to `b` around `d`. -/
def Dominates (d b : F.Block) : Prop :=
  d = b ∨ ¬ ReflTransGen (fun x y => F.Edge x y ∧ x ≠ d ∧ y ≠ d) F.getEntryBlock b

def BackEdge (u v : F.Block) : Prop := F.Edge u v ∧ F.Dominates v u

/-- An edge that is not a back edge. -/
def Forward (u v : F.Block) : Prop := F.Edge u v ∧ ¬ F.Dominates v u

/-- Without the back edges there are no cycles. -/
def Reducible : Prop := ∀ b, F.Reachable b → ¬ TransGen F.Forward b b

/-- The loop with header `h`: the blocks that get back to it along one of its back
edges. -/
def NaturalLoop (h b : F.Block) : Prop :=
  b = h ∨ ∃ u, F.BackEdge u h ∧ ReflTransGen (fun x y => F.Edge x y ∧ x ≠ h ∧ y ≠ h) b u

/-- `loops` are the natural loops of the graph. -/
def IsLoopInfo : Prop :=
  ∀ loop, loop ∈ F.loops ↔ ∃ h, F.Reachable h ∧ (∃ u, F.Reachable u ∧ F.BackEdge u h) ∧
    ∀ b, b ∈ loop ↔ F.Reachable b ∧ F.NaturalLoop h b

/-- The order that the comment over the function asks for. -/
structure WellSorted (l : List F.Block) : Prop where
  perm : l.Perm F.blocks
  entry_first : l.head? = some F.getEntryBlock
  edges : ∀ u v, F.Reachable v → F.Forward u v → l.idxOf u < l.idxOf v
  /-- what is behind a loop comes after all of it -/
  exits : ∀ loop ∈ F.loops, ∀ x ∈ loop, ∀ y ∉ loop, ReflTransGen F.Forward x y →
    ∀ z ∈ loop, l.idxOf z < l.idxOf y

/-- Both variants sort well, and they agree on the reachable blocks. -/
structure SortsCorrectly : Prop where
  sorted16 : F.WellSorted (sortBasicBlock16 F)
  sorted17 : F.WellSorted (sortBasicBlock17 F)
  agree : ∀ u v, F.Reachable u → F.Reachable v →
    ((sortBasicBlock16 F).idxOf u < (sortBasicBlock16 F).idxOf v ↔
      (sortBasicBlock17 F).idxOf u < (sortBasicBlock17 F).idxOf v)

/-! ### The search -/

variable {F}

theorem mem_children {u v : F.Block} : v ∈ F.children u ↔ F.Edge u v := by
  rw [Edge, children]
  split
  · next child0 child1 h =>
    rw [h]
    split
    · split_ifs
      · simp [or_comm]
      · rfl
    · rfl
  · rfl

theorem reaches_children :
    ReflTransGen (DepthFirst.Edge F.children) = ReflTransGen F.Edge := by
  congr 1
  funext u v
  exact propext mem_children

theorem mem_sorted {b : F.Block} : b ∈ F.sorted ↔ F.Reachable b := by
  rw [sorted, DepthFirst.mem_postorder, reaches_children, Reachable]

theorem sorted_nodup : F.sorted.Nodup := DepthFirst.postorder_nodup _

theorem blocks_nodup : F.blocks.Nodup := List.nodup_finRange _

theorem mem_blocks (b : F.Block) : b ∈ F.blocks := List.mem_finRange b

theorem sortBasicBlock16_eq :
    sortBasicBlock16 F = (F.blocks.filter fun b => b ∉ F.sorted) ++ F.sorted.reverse :=
  removeAndAppend_eq blocks_nodup

theorem sortBasicBlock17_eq :
    sortBasicBlock17 F = F.sorted ++ F.blocks.filter fun b => b ∉ F.sorted :=
  moveToFront_eq sorted_nodup blocks_nodup fun b _ => mem_blocks b

theorem sortBasicBlock16_perm : (sortBasicBlock16 F).Perm F.blocks := by
  rw [sortBasicBlock16_eq]
  refine (List.perm_ext_iff_of_nodup ?_ blocks_nodup).mpr fun b => ?_
  · refine List.nodup_append.mpr ⟨blocks_nodup.filter _, List.nodup_reverse.mpr sorted_nodup, ?_⟩
    rintro b hb c hc rfl
    exact (by simpa using (List.mem_filter.mp hb).2 : b ∉ F.sorted) (List.mem_reverse.mp hc)
  · by_cases hb : b ∈ F.sorted
    · simp [hb, mem_blocks]
    · simp [hb, mem_blocks]

theorem sortBasicBlock17_perm : (sortBasicBlock17 F).Perm F.blocks := by
  refine List.Perm.trans ?_ sortBasicBlock16_perm
  rw [sortBasicBlock16_eq, sortBasicBlock17_eq]
  exact List.perm_append_comm.trans ((List.reverse_perm _).symm.append_left _)

/-- A block comes before its successors in reverse post-order, unless one of them gets
back to it. -/
theorem reversePostOrder_edge {u v : F.Block} (hu : F.Reachable u) (huv : F.Edge u v)
    (hacyclic : ¬ ReflTransGen F.Edge v u) :
    ∃ pre mid post, F.sorted.reverse = pre ++ u :: (mid ++ v :: post) := by
  obtain ⟨before, after, hsplit⟩ := List.append_of_mem (mem_sorted.mpr hu)
  have hv : v ∈ before := by
    rcases DepthFirst.postorder_edge hsplit (mem_children.mpr huv) with h | h
    · exact h
    · rw [reaches_children] at h
      exact absurd h hacyclic
  obtain ⟨pre, post, rfl⟩ := List.append_of_mem hv
  exact ⟨after.reverse, post.reverse, pre.reverse, by simp [hsplit]⟩

theorem idxOf_lt_idxOf {pre mid post : List α} {u v : α}
    (h : (pre ++ u :: (mid ++ v :: post)).Nodup) :
    (pre ++ u :: (mid ++ v :: post)).idxOf u < (pre ++ u :: (mid ++ v :: post)).idxOf v := by
  have hu : u ∉ pre := fun hu =>
    (List.nodup_append.mp h).2.2 u hu u (by simp) rfl
  have hv : v ∉ pre := fun hv =>
    (List.nodup_append.mp h).2.2 v hv v (by simp) rfl
  have huv : u ≠ v := by
    rintro rfl
    exact (List.nodup_cons.mp (List.nodup_append.mp h).2.1).1 (by simp)
  rw [List.idxOf_append_of_notMem hu, List.idxOf_append_of_notMem hv, List.idxOf_cons_self,
    List.idxOf_cons_ne _ huv]
  omega

/-- The first variant puts reachable blocks in topological order, up to cycles. -/
theorem sortBasicBlock16_edge {u v : F.Block} (hu : F.Reachable u) (huv : F.Edge u v)
    (hacyclic : ¬ ReflTransGen F.Edge v u) :
    (sortBasicBlock16 F).idxOf u < (sortBasicBlock16 F).idxOf v := by
  obtain ⟨pre, mid, post, hrev⟩ := reversePostOrder_edge hu huv hacyclic
  have hnodup := sortBasicBlock16_perm.nodup_iff.mpr F.blocks_nodup
  rw [sortBasicBlock16_eq, hrev, ← List.append_assoc] at hnodup ⊢
  exact idxOf_lt_idxOf hnodup

/-! ### When the order is right -/

/-- The second variant starts with the block that the search is done with first. -/
theorem sorted_eq_of_head {l : List F.Block}
    (h : (F.sorted ++ l).head? = some F.getEntryBlock) : F.sorted = [F.getEntryBlock] := by
  have hlast : F.sorted.getLast? = some F.getEntryBlock := DepthFirst.getLast?_postorder _
  have hnodup := F.sorted_nodup
  rcases hs : F.sorted with _ | ⟨b, bs⟩
  · rw [hs] at hlast
    cases hlast
  · rw [hs] at h hlast hnodup
    obtain rfl : b = F.getEntryBlock := by simpa using h
    rcases List.eq_nil_or_concat bs with rfl | ⟨bs, c, rfl⟩
    · rfl
    · -- the entry would be listed twice
      obtain rfl : c = F.getEntryBlock := by simpa [List.getLast?_cons] using hlast
      exact absurd hnodup (by simp)

theorem subsingleton_of_others (h : F.others = 0) : Subsingleton F.Block :=
  Fin.subsingleton_iff_le_one.mpr (by omega)

theorem wellSorted_of_subsingleton [Subsingleton F.Block] {l : List F.Block}
    (hperm : l.Perm F.blocks) : F.WellSorted l where
  perm := hperm
  entry_first := by
    rcases l with _ | ⟨b, l⟩
    · exact absurd (hperm.mem_iff.mpr (F.mem_blocks F.getEntryBlock)) (by simp)
    · rw [List.head?_cons, Subsingleton.elim b F.getEntryBlock]
  edges u v _ h := absurd (.inl (Subsingleton.elim v u)) h.2
  exits loop _ x hx y hy := absurd (Subsingleton.elim x y ▸ hx) hy

end Cfg

/-- **The order of the basic blocks.**  The variant for newer libraries leaves the
entry block last among the reachable ones and the variant for older libraries leaves
it behind the unreachable ones, so that only functions of one block are sorted as
intended. -/
theorem sortBasicBlock_correct_iff (F : Cfg) : F.SortsCorrectly ↔ F.others = 0 := by
  constructor
  · intro h
    have hsorted : F.sorted = [F.getEntryBlock] := by
      have hhead := h.sorted17.entry_first
      rw [Cfg.sortBasicBlock17_eq] at hhead
      exact Cfg.sorted_eq_of_head hhead
    have hhead := h.sorted16.entry_first
    rw [Cfg.sortBasicBlock16_eq, hsorted] at hhead
    -- a block that is not listed would be in front of the entry
    have hall : ∀ b : F.Block, b = F.getEntryBlock := by
      intro b
      by_contra hb
      rcases hfilter : F.blocks.filter (fun b => b ∉ [F.getEntryBlock]) with _ | ⟨c, cs⟩
      · have hmem : b ∈ F.blocks.filter fun b => b ∉ [F.getEntryBlock] :=
          List.mem_filter.mpr ⟨F.mem_blocks b, by simpa using hb⟩
        rw [hfilter] at hmem
        cases hmem
      · have hc : c ∈ F.blocks.filter fun b => b ∉ [F.getEntryBlock] := by
          rw [hfilter]
          simp
        rw [hfilter, List.cons_append, List.head?_cons, Option.some_inj] at hhead
        exact absurd hhead (by simpa using (List.mem_filter.mp hc).2)
    by_contra hothers
    have h1 := congrArg Fin.val (hall ⟨1, by omega⟩)
    exact absurd h1 (by simp [Cfg.getEntryBlock])
  · intro h
    have := Cfg.subsingleton_of_others h
    refine ⟨Cfg.wellSorted_of_subsingleton Cfg.sortBasicBlock16_perm,
      Cfg.wellSorted_of_subsingleton Cfg.sortBasicBlock17_perm, ?_⟩
    intro u v _ _
    rw [Subsingleton.elim u v]
    simp

/-- Two blocks in a row. -/
def rowCfg : Cfg where
  others := 1
  successors b := if b = 0 then [1] else []
  successors_le := by decide
  loops := []

theorem rowCfg_edge {u v : rowCfg.Block} (h : rowCfg.Edge u v) : u = 0 ∧ v = 1 := by
  have hall : ∀ u v : rowCfg.Block, v ∈ rowCfg.successors u → u = 0 ∧ v = 1 := by decide
  exact hall u v h

/-- The second variant puts the second block in front of the entry. -/
theorem rowCfg_reversed :
    rowCfg.Reducible ∧ rowCfg.IsLoopInfo ∧ sortBasicBlock17 rowCfg = [1, 0] ∧
      ¬ rowCfg.SortsCorrectly := by
  have hback : ∀ u v, ¬ rowCfg.BackEdge u v := by
    rintro u v ⟨hedge, hdom⟩
    obtain ⟨rfl, rfl⟩ := rowCfg_edge hedge
    rcases hdom with h | h
    · exact absurd h (by decide)
    · exact h .refl
  have hsorted : sortBasicBlock17 rowCfg = [1, 0] := by decide
  refine ⟨?_, ?_, hsorted, ?_⟩
  · intro b _ hcycle
    -- a forward step goes from 0 to 1 and there is none from 1
    have hlt : ∀ u v, TransGen rowCfg.Forward u v → u = 0 ∧ v = 1 := by
      intro u v h
      induction h with
      | single h => exact rowCfg_edge h.1
      | tail _ h ih => exact ⟨ih.1, (rowCfg_edge h.1).2⟩
    obtain ⟨h0, h1⟩ := hlt b b hcycle
    exact absurd (h0.symm.trans h1) (by decide)
  · intro loop
    constructor
    · intro h
      exact absurd h List.not_mem_nil
    · rintro ⟨h, -, ⟨u, -, hu⟩, -⟩
      exact absurd hu (hback u h)
  · intro h
    have hhead := h.sorted17.entry_first
    rw [hsorted] at hhead
    exact absurd hhead (by decide)

/-- A loop of four blocks with its exit behind one of them. -/
def exitCfg : Cfg where
  others := 5
  successors b := match b with
    | 0 => [1]
    | 1 => [2, 3]
    | 2 => [4]
    | 3 => [5, 4]
    | 4 => [1]
    | 5 => []
  successors_le := by decide
  loops := [{1, 2, 3, 4}]

/-- The edge that leaves the loop. -/
theorem sortBasicBlock16_edge_exit :
    (sortBasicBlock16 exitCfg).idxOf 3 < (sortBasicBlock16 exitCfg).idxOf 5 := by
  have hreach : exitCfg.Reachable 3 :=
    .head (show (1 : exitCfg.Block) ∈ exitCfg.successors 0 by decide)
      (.single (show (3 : exitCfg.Block) ∈ exitCfg.successors 1 by decide))
  refine Cfg.sortBasicBlock16_edge hreach (show (5 : exitCfg.Block) ∈ exitCfg.successors 3 by
    decide) fun hback => ?_
  obtain h | ⟨c, hc, -⟩ := hback.cases_head
  · exact absurd h (by decide)
  · exact absurd hc List.not_mem_nil

/-- The exit, block 5, ends up between the blocks of the loop also in the first
variant: trying the exit first helps only where the search gets to its block before
the other blocks of the loop. -/
example : sortBasicBlock16 exitCfg = [0, 1, 3, 5, 2, 4] := by decide

end Llvm.GenWriter
