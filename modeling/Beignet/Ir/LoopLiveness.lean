/-
Live ranges through loops (`Liveness::computeExtraLiveInOut`, `ir/liveness.cpp`).

The lanes of a thread leave a loop one after another.  A register that is defined in the loop
and used behind it has to be kept until the last lane has left, so the pass makes it live in
the whole loop.  Registers that were live before the loop are taken out with the live-out set
of the preheader, and the pass takes that set as the loops handled before have left it: a
register that an earlier loop has put there is taken for one that was live before.

* `mem_extendLoop` — what one loop does to the sets, for one register;
* `has_handled` — what a list of loops does;
* **`loop_liveness_complete_iff`** — when the registers that leave a loop are live in all of
  it;
* `complete_of_nested` — they are, in any order of the loops, where the preheader of a loop
  lies only in loops around it.
-/
import Beignet.Ir.Liveness

open Transition

namespace Ir.Liveness

variable {fn : Function} {info info' : fn.Block → BlockInfo} {l : Loop fn.blockNum}
  {b : fn.Block} {r : Register}

/-! ### One loop -/

/-- The register is live at both ends of the block. -/
def Has (info : fn.Block → BlockInfo) (b : fn.Block) (r : Register) : Prop :=
  r ∈ (info b).upwardUsed ∧ r ∈ (info b).liveOut

/-- The register is live behind one of the exits, and not live out of the preheader. -/
def Carries (info : fn.Block → BlockInfo) (l : Loop fn.blockNum) (r : Register) : Prop :=
  ∃ x ∈ l.exits, r ∈ toExtend fn info l x

/-- The two families of sets agree on the register. -/
def Agree (r : Register) (info info' : fn.Block → BlockInfo) : Prop :=
  ∀ b, (r ∈ (info b).upwardUsed ↔ r ∈ (info' b).upwardUsed) ∧
    (r ∈ (info b).liveOut ↔ r ∈ (info' b).liveOut)

theorem foldl_extendBlock (regs : Finset Register) (bbs : List fn.Block)
    (info : fn.Block → BlockInfo) (b : fn.Block) :
    (r ∈ ((bbs.foldl (extendBlock regs) info) b).upwardUsed ↔
        r ∈ (info b).upwardUsed ∨ b ∈ bbs ∧ r ∈ regs) ∧
      (r ∈ ((bbs.foldl (extendBlock regs) info) b).liveOut ↔
        r ∈ (info b).liveOut ∨ b ∈ bbs ∧ r ∈ regs) := by
  induction bbs generalizing info with
  | nil => simp
  | cons c bbs ih =>
    rw [List.foldl_cons, (ih _).1, (ih _).2, List.mem_cons]
    by_cases hc : b = c
    · subst hc
      simp only [extendBlock, Function.update_self, Finset.mem_union, true_or, true_and]
      tauto
    · simp only [extendBlock, Function.update_of_ne hc, hc, false_or, true_and]

theorem toExtend_congr (h : Agree r info info') (l : Loop fn.blockNum) (x : fn.Block × fn.Block) :
    r ∈ toExtend fn info l x ↔ r ∈ toExtend fn info' l x := by
  unfold toExtend
  dsimp only
  rw [Finset.mem_sdiff, Finset.mem_sdiff, (h l.preheader).2]
  split
  · rw [(h x.2).1]
  · rw [Finset.mem_inter, Finset.mem_inter, (h x.1).2, (h x.2).1]

/-- One exit and the others together. -/
theorem or_and_step {A B T E E' : Prop} (hT : T → E) (hE : ¬ T → (E' ↔ E)) :
    (A ∨ B ∧ T) ∨ B ∧ E' ↔ A ∨ B ∧ E := by
  by_cases h : T
  · have hE := hT h
    tauto
  · rw [hE h]
    tauto

theorem foldl_extendExit (l : Loop fn.blockNum) (exits : List (fn.Block × fn.Block))
    (info : fn.Block → BlockInfo) (b : fn.Block) :
    (r ∈ ((exits.foldl (extendExit l) info) b).upwardUsed ↔
        r ∈ (info b).upwardUsed ∨ b ∈ l.bbs ∧ ∃ x ∈ exits, r ∈ toExtend fn info l x) ∧
      (r ∈ ((exits.foldl (extendExit l) info) b).liveOut ↔
        r ∈ (info b).liveOut ∨ b ∈ l.bbs ∧ ∃ x ∈ exits, r ∈ toExtend fn info l x) := by
  induction exits generalizing info with
  | nil => simp
  | cons x exits ih =>
    have hone := fun c => foldl_extendBlock (r := r) (toExtend fn info l x) l.bbs info c
    rw [List.foldl_cons, (ih _).1, (ih _).2, extendExit, (hone b).1, (hone b).2]
    have hfirst : r ∈ toExtend fn info l x → ∃ y ∈ x :: exits, r ∈ toExtend fn info l y :=
      fun hx => ⟨x, List.mem_cons_self, hx⟩
    -- unless the exit carries the register, the others see the same sets
    have hothers : r ∉ toExtend fn info l x →
        ((∃ y ∈ exits, r ∈ toExtend fn
          (l.bbs.foldl (extendBlock (toExtend fn info l x)) info) l y) ↔
            ∃ y ∈ x :: exits, r ∈ toExtend fn info l y) := by
      intro hx
      have hagree : Agree r (l.bbs.foldl (extendBlock (toExtend fn info l x)) info) info := by
        intro c
        rw [(hone c).1, (hone c).2, and_iff_right_of_imp fun h => absurd h hx]
        exact ⟨or_iff_left hx, or_iff_left hx⟩
      rw [List.exists_mem_cons_iff, or_iff_right hx]
      exact exists_congr fun y => and_congr_right fun _ => toExtend_congr hagree l y
    exact ⟨or_and_step hfirst hothers, or_and_step hfirst hothers⟩

/-- **What a loop does to the sets**, for one register. -/
theorem mem_extendLoop :
    (r ∈ (extendLoop info l b).upwardUsed ↔
        r ∈ (info b).upwardUsed ∨ b ∈ l.bbs ∧ Carries info l r) ∧
      (r ∈ (extendLoop info l b).liveOut ↔
        r ∈ (info b).liveOut ∨ b ∈ l.bbs ∧ Carries info l r) :=
  foldl_extendExit l l.exits info b

theorem has_extendLoop :
    Has (extendLoop info l) b r ↔ Has info b r ∨ b ∈ l.bbs ∧ Carries info l r := by
  unfold Has
  rw [mem_extendLoop.1, mem_extendLoop.2]
  tauto

/-! ### All loops -/

/-- The sets after the given loops. -/
def handled (loops : List (Loop fn.blockNum)) (info : fn.Block → BlockInfo) :
    fn.Block → BlockInfo :=
  loops.foldl extendLoop info

theorem handled_append (loops : List (Loop fn.blockNum)) (l : Loop fn.blockNum) :
    handled (loops ++ [l]) info = extendLoop (handled loops info) l := by
  rw [handled, List.foldl_append]
  rfl

theorem handled_append' (pre post : List (Loop fn.blockNum)) :
    handled (pre ++ post) info = handled post (handled pre info) := List.foldl_append

/-- A block in one of the loops that carries the register when its turn comes. -/
def Later (loops : List (Loop fn.blockNum)) (info : fn.Block → BlockInfo) (b : fn.Block)
    (r : Register) : Prop :=
  ∃ mid m rest, loops = mid ++ m :: rest ∧ b ∈ m.bbs ∧ Carries (handled mid info) m r

theorem later_append {loops : List (Loop fn.blockNum)} :
    Later (loops ++ [l]) info b r ↔
      Later loops info b r ∨ b ∈ l.bbs ∧ Carries (handled loops info) l r := by
  constructor
  · rintro ⟨mid, m, rest, heq, hb, hm⟩
    rcases List.eq_nil_or_concat rest with rfl | ⟨rest, last, rfl⟩
    · obtain ⟨rfl, hlast⟩ := List.append_inj' heq rfl
      obtain rfl := List.singleton_inj.mp hlast
      exact .inr ⟨hb, hm⟩
    · rw [List.concat_eq_append, ← List.cons_append, ← List.append_assoc] at heq
      exact .inl ⟨mid, m, rest, (List.append_inj' heq rfl).1, hb, hm⟩
  · rintro (⟨mid, m, rest, rfl, hb, hm⟩ | ⟨hb, hm⟩)
    · exact ⟨mid, m, rest ++ [l], by simp, hb, hm⟩
    · exact ⟨loops, l, [], rfl, hb, hm⟩

/-- **What a list of loops does**, for one register. -/
theorem has_handled {loops : List (Loop fn.blockNum)} :
    Has (handled loops info) b r ↔ Has info b r ∨ Later loops info b r := by
  induction loops using List.reverseRecOn with
  | nil =>
    refine (or_iff_left ?_).symm
    rintro ⟨mid, m, rest, heq, -⟩
    exact absurd heq.symm (by simp)
  | append_singleton loops l ih =>
    rw [handled_append, has_extendLoop, ih, later_append, or_assoc]

theorem mem_liveOut_handled {loops : List (Loop fn.blockNum)} :
    r ∈ (handled loops info b).liveOut ↔ r ∈ (info b).liveOut ∨ Later loops info b r := by
  induction loops using List.reverseRecOn with
  | nil =>
    refine (or_iff_left ?_).symm
    rintro ⟨mid, m, rest, heq, -⟩
    exact absurd heq.symm (by simp)
  | append_singleton loops l ih =>
    rw [handled_append, mem_extendLoop.2, ih, later_append, or_assoc]

theorem mem_upwardUsed_handled {loops : List (Loop fn.blockNum)}
    (h : r ∈ (info b).upwardUsed) : r ∈ (handled loops info b).upwardUsed := by
  induction loops using List.reverseRecOn with
  | nil => exact h
  | append_singleton loops l ih =>
    rw [handled_append, mem_extendLoop.1]
    exact .inl ih

/-! ### Completeness -/

/-- The register is live across the edge. -/
def LiveAcross (info : fn.Block → BlockInfo) (x : fn.Block × fn.Block) (r : Register) : Prop :=
  r ∈ (info x.1).liveOut ∧ r ∈ (info x.2).upwardUsed

/-- The register is live across an exit of the loop, and was not live before the loop. -/
def LeavesLoop (info : fn.Block → BlockInfo) (l : Loop fn.blockNum) (r : Register) : Prop :=
  (∃ x ∈ l.exits, LiveAcross info x r) ∧ r ∉ (info l.preheader).liveOut

/-- A register that leaves a loop is live at both ends of every block of it. -/
def LoopsComplete (fn : Function) (info info' : fn.Block → BlockInfo) : Prop :=
  ∀ l ∈ fn.loops, ∀ r, LeavesLoop info l r → ∀ b ∈ l.bbs, Has info' b r

/-- A register that leaves a loop is carried by it, unless the preheader has got it from a
loop handled before. -/
theorem LeavesLoop.carries {loops : List (Loop fn.blockNum)} (h : LeavesLoop info l r)
    (hpre : r ∉ (handled loops info l.preheader).liveOut) : Carries (handled loops info) l r := by
  obtain ⟨⟨x, hx, hout, hup⟩, -⟩ := h
  have hout' : r ∈ (handled loops info x.1).liveOut := mem_liveOut_handled.mpr (.inl hout)
  have hup' : r ∈ (handled loops info x.2).upwardUsed := mem_upwardUsed_handled hup
  refine ⟨x, hx, Finset.mem_sdiff.mpr ⟨?_, hpre⟩⟩
  split
  · exact hup'
  · exact Finset.mem_inter.mpr ⟨hout', hup'⟩

/-- **When the extension is complete.**  Where the loops handled before a loop have put a
register that leaves it into the live-out set of its preheader, the blocks of the loop must have
got the register too, from these loops or from later ones. -/
theorem loop_liveness_complete_iff (fn : Function) (info : fn.Block → BlockInfo) :
    LoopsComplete fn info (computeExtraLiveInOut fn info) ↔
      ∀ pre l post, fn.loops = pre ++ l :: post → ∀ r, LeavesLoop info l r →
        r ∈ (handled pre info l.preheader).liveOut →
          ∀ b ∈ l.bbs, Has (handled pre info) b r ∨
            Later post (handled (pre ++ [l]) info) b r := by
  -- the sets after all loops, seen from one of them
  have hsplit : ∀ pre l post, fn.loops = pre ++ l :: post → ∀ b r,
      (Has (computeExtraLiveInOut fn info) b r ↔
        (Has (handled pre info) b r ∨ b ∈ l.bbs ∧ Carries (handled pre info) l r) ∨
          Later post (handled (pre ++ [l]) info) b r) := by
    intro pre l post heq b r
    have hall : computeExtraLiveInOut fn info = handled post (handled (pre ++ [l]) info) := by
      rw [← handled_append', computeExtraLiveInOut, heq]
      simp [handled]
    rw [hall, has_handled, handled_append, has_extendLoop]
  constructor
  · intro h pre l post heq r hr hpre b hb
    have hhas := h l (by rw [heq]; simp) r hr b hb
    rcases (hsplit pre l post heq b r).mp hhas with (hold | ⟨-, x, -, hx⟩) | hlater
    · exact .inl hold
    · exact absurd hpre (Finset.mem_sdiff.mp hx).2
    · exact .inr hlater
  · intro h l hl r hr b hb
    obtain ⟨pre, post, heq⟩ := List.append_of_mem hl
    rw [hsplit pre l post heq b r]
    by_cases hpre : r ∈ (handled pre info l.preheader).liveOut
    · exact (h pre l post heq r hr hpre b hb).imp_left .inl
    · exact .inl (.inr ⟨hb, hr.carries hpre⟩)

/-- **Proper nests**, in any order. -/
theorem complete_of_nested (info : fn.Block → BlockInfo)
    (hnest : ∀ l ∈ fn.loops, ∀ m ∈ fn.loops, l.preheader ∈ m.bbs → ∀ b ∈ l.bbs, b ∈ m.bbs) :
    LoopsComplete fn info (computeExtraLiveInOut fn info) := by
  intro l hl r hr b hb
  obtain ⟨pre, post, heq⟩ := List.append_of_mem hl
  refine has_handled.mpr (.inr ?_)
  by_cases hpre : r ∈ (handled pre info l.preheader).liveOut
  · -- the loop that brought the register to the preheader is around this one
    obtain ⟨mid, m, rest, rfl, hm, hcarries⟩ := (mem_liveOut_handled.mp hpre).resolve_left hr.2
    have hbm := hnest l hl m (by rw [heq]; simp) hm b hb
    exact ⟨mid, m, rest ++ l :: post, by rw [heq]; simp, hbm, hcarries⟩
  · exact ⟨pre, l, post, heq, hb, hr.carries hpre⟩

/-! ### Two loops in a row -/

def plainBlock (opcode : Opcode) (src dst : List Register) : BasicBlock :=
  ⟨⟨.other, [], []⟩, [⟨opcode, src, dst⟩], ∅, ∅⟩

/-- For the literals of `Fin 6`. -/
local instance neZero_six : NeZero 6 := ⟨by decide⟩

/-- The blocks 1 and 2 are a loop, 3 and 4 another one, and both loops are left for block 5,
with a copy for a phi register in the blocks 1 and 4.  The second loop is entered from the
last block of the first. -/
def twoLoops : Function where
  blockNum := 6
  block := ![plainBlock .other [] [], plainBlock .OP_MOV [] [50], plainBlock .other [] [],
    plainBlock .other [] [], plainBlock .OP_MOV [] [50], plainBlock .OP_RET [50] []]
  successors := ![{1}, {2, 5}, {1, 3}, {4}, {3, 5}, ∅]
  loops := [⟨0, [1, 2], [(1, 5), (2, 3)]⟩, ⟨2, [3, 4], [(4, 5)]⟩]
  profile := .PROFILE_OCL
  args := []
  pushMap := ∅

/-- The blocks 3 and 4 are a loop within the loop of the blocks from 1 on. -/
def nestedLoops : Function where
  blockNum := 6
  block := twoLoops.block
  successors := ![{1}, {2}, {3}, {4}, {1, 3, 5}, ∅]
  loops := [⟨2, [3, 4], [(4, 5), (4, 1)]⟩, ⟨0, [1, 2, 3, 4], [(4, 5)]⟩]
  profile := .PROFILE_OCL
  args := []
  pushMap := ∅

/-- Visits of its blocks, from the last one on. -/
def nestedLoopsVisits : List (Action nestedLoops) :=
  let block : Fin 6 → nestedLoops.Block := id
  [.visit (block 5) [block 4], .visit (block 4) [block 3], .visit (block 3) [block 2, block 4],
    .visit (block 2) [block 1], .visit (block 1) [block 0, block 4], .visit (block 0) [],
    .visit (block 4) [block 3]]

/-- Once the liveness is computed, the register leaves the inner loop, and is then live in it. -/
theorem complete_of_nested_nestedLoops :
    ∃ s, exec next (init nestedLoops) nestedLoopsVisits = some s ∧ Finished s ∧
      LeavesLoop s.liveness (⟨(2 : Fin 6), [(3 : Fin 6), (4 : Fin 6)],
        [((4 : Fin 6), (5 : Fin 6)), ((4 : Fin 6), (1 : Fin 6))]⟩ :
          Loop nestedLoops.blockNum) 50 ∧
      Has (computeExtraLiveInOut nestedLoops s.liveness) (3 : Fin 6) 50 := by
  have hrun : (exec next (init nestedLoops) nestedLoopsVisits).any (fun s =>
      decide (s.workSet = ∅ ∧ s.unvisitBlocks = ∅) &&
        decide (50 ∈ (s.liveness (4 : Fin 6)).liveOut ∧
          50 ∈ (s.liveness (5 : Fin 6)).upwardUsed ∧
          50 ∉ (s.liveness (2 : Fin 6)).liveOut)) = true := by
    decide +kernel
  obtain ⟨s, hs, hall⟩ := (Option.any_eq_true _ _).mp hrun
  obtain ⟨hfinished, hout, hup, hpre⟩ := (by simpa using hall)
  have hleaves : LeavesLoop s.liveness (⟨(2 : Fin 6), [(3 : Fin 6), (4 : Fin 6)],
      [((4 : Fin 6), (5 : Fin 6)), ((4 : Fin 6), (1 : Fin 6))]⟩ :
        Loop nestedLoops.blockNum) 50 :=
    ⟨⟨_, List.mem_cons_self, hout, hup⟩, hpre⟩
  have hcomplete := @complete_of_nested nestedLoops s.liveness (by decide)
  exact ⟨s, hs, hfinished, hleaves,
    hcomplete _ List.mem_cons_self 50 hleaves (3 : Fin 6) List.mem_cons_self⟩

/-- Visits of the six blocks, from the last one on. -/
def twoLoopsVisits : List (Action twoLoops) :=
  let block : Fin 6 → twoLoops.Block := id
  [.visit (block 5) [block 1, block 4], .visit (block 1) [block 0, block 2],
    .visit (block 0) [], .visit (block 2) [block 1], .visit (block 4) [block 3],
    .visit (block 3) [block 2, block 4]]

/-- The first loop makes the register live out of block 2, the preheader of the second loop.
The register leaves the second loop, and is not made live there. -/
theorem second_loop_incomplete :
    ∃ s, exec next (init twoLoops) twoLoopsVisits = some s ∧ Finished s ∧
      ¬ LoopsComplete twoLoops s.liveness (computeExtraLiveInOut twoLoops s.liveness) := by
  have hrun : (exec next (init twoLoops) twoLoopsVisits).any (fun s =>
      decide (s.workSet = ∅ ∧ s.unvisitBlocks = ∅) &&
        decide (50 ∈ (s.liveness (4 : Fin 6)).liveOut ∧
          50 ∈ (s.liveness (5 : Fin 6)).upwardUsed ∧
          50 ∉ (s.liveness (2 : Fin 6)).liveOut ∧
          50 ∉ (computeExtraLiveInOut twoLoops s.liveness (3 : Fin 6)).liveOut)) = true := by
    decide +kernel
  obtain ⟨s, hs, hall⟩ := (Option.any_eq_true _ _).mp hrun
  obtain ⟨hfinished, hout, hup, hpre, hnot⟩ := (by simpa using hall)
  refine ⟨s, hs, hfinished, fun h => hnot ?_⟩
  have hleaves : LeavesLoop s.liveness
      (⟨(2 : Fin 6), [(3 : Fin 6), (4 : Fin 6)], [((4 : Fin 6), (5 : Fin 6))]⟩ :
        Loop twoLoops.blockNum) 50 :=
    ⟨⟨_, List.mem_singleton_self _, hout, hup⟩, hpre⟩
  exact (h _ (List.mem_cons_of_mem _ (List.mem_singleton_self _)) 50 hleaves (3 : Fin 6)
    List.mem_cons_self).2

end Ir.Liveness
