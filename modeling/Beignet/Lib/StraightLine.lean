/-
Straight-line code over registers.

An action reads some registers and the world, gives its results to other registers, and leaves
another world.  That it reads nothing else is a field of it, so that a change of the registers it
does not read changes nothing.  Where a list of actions writes each register at most once, a
register keeps what it is given.

* `exec_frame` — a register that is not written;
* `step_mapSrc` — an action that reads renamed registers;
* `exec_coalesce` — a copy whose source was computed for it: the result goes to the destination at
  once, and the copy is dropped.
-/
import Mathlib

namespace StraightLine

variable {Reg Val World : Type*}

/-- Registers, and the rest of the machine. -/
structure State (Reg Val World : Type*) where
  regs : Reg → Val
  world : World

/-- An instruction: its registers and its meaning. -/
structure Action (Reg Val World : Type*) where
  dst : List Reg
  src : List Reg
  run : (Reg → Val) → World → (ℕ → Val) × World
  /-- It reads its sources only. -/
  congr : ∀ regs regs' w, (∀ r ∈ src, regs r = regs' r) → run regs w = run regs' w

/-- Two states that differ on the registers in `D` only. -/
structure AgreeOff (D : Set Reg) (s t : State Reg Val World) : Prop where
  regs : ∀ r ∉ D, s.regs r = t.regs r
  world : s.world = t.world

theorem AgreeOff.refl (D : Set Reg) (s : State Reg Val World) : AgreeOff D s s :=
  ⟨fun _ _ => rfl, rfl⟩

theorem AgreeOff.symm {D : Set Reg} {s t : State Reg Val World} (h : AgreeOff D s t) :
    AgreeOff D t s :=
  ⟨fun r hr => (h.regs r hr).symm, h.world.symm⟩

theorem AgreeOff.trans {D : Set Reg} {s t u : State Reg Val World} (h : AgreeOff D s t)
    (h' : AgreeOff D t u) : AgreeOff D s u :=
  ⟨fun r hr => (h.regs r hr).trans (h'.regs r hr), h.world.trans h'.world⟩

namespace Action

def copy (dst src : Reg) : Action Reg Val World where
  dst := [dst]
  src := [src]
  run regs w := (fun _ => regs src, w)
  congr _ _ _ h := by rw [h src (List.mem_singleton_self src)]

def const (dst : Reg) (v : Val) : Action Reg Val World where
  dst := [dst]
  src := []
  run _ w := (fun _ => v, w)
  congr _ _ _ _ := rfl

/-- It reads `f r` where it read `r`. -/
def mapSrc (f : Reg → Reg) (a : Action Reg Val World) : Action Reg Val World where
  dst := a.dst
  src := a.src.map f
  run regs w := a.run (fun r => regs (f r)) w
  congr _ _ w h := a.congr _ _ w fun r hr => h (f r) (List.mem_map_of_mem hr)

/-- It writes `f r` where it wrote `r`. -/
def mapDst (f : Reg → Reg) (a : Action Reg Val World) : Action Reg Val World where
  dst := a.dst.map f
  src := a.src
  run := a.run
  congr := a.congr

end Action

/-- The registers that a list of actions writes. -/
def writes (as : List (Action Reg Val World)) : List Reg := as.flatMap Action.dst

@[simp] theorem writes_cons (a : Action Reg Val World) (as : List (Action Reg Val World)) :
    writes (a :: as) = a.dst ++ writes as := rfl

variable [DecidableEq Reg]

/-- The destinations take the results. -/
def write (dst : List Reg) (res : ℕ → Val) (regs : Reg → Val) : Reg → Val :=
  fun r => if r ∈ dst then res (dst.idxOf r) else regs r

/-- One instruction. -/
def step (s : State Reg Val World) (a : Action Reg Val World) : State Reg Val World :=
  ⟨write a.dst (a.run s.regs s.world).1 s.regs, (a.run s.regs s.world).2⟩

/-- A list of instructions. -/
def exec (s : State Reg Val World) (as : List (Action Reg Val World)) : State Reg Val World :=
  as.foldl step s

section

variable {s t : State Reg Val World} {a : Action Reg Val World}
variable {as bs : List (Action Reg Val World)} {r : Reg}

@[simp] theorem exec_nil : exec s [] = s := rfl

@[simp] theorem exec_cons : exec s (a :: as) = exec (step s a) as := rfl

theorem exec_append : exec s (as ++ bs) = exec (exec s as) bs := List.foldl_append

theorem step_of_notMem (h : r ∉ a.dst) : (step s a).regs r = s.regs r := if_neg h

theorem step_of_mem (h : r ∈ a.dst) :
    (step s a).regs r = (a.run s.regs s.world).1 (a.dst.idxOf r) := if_pos h

@[simp] theorem step_copy (d x : Reg) :
    step s (.copy d x) = ⟨Function.update s.regs d (s.regs x), s.world⟩ := by
  refine congrArg₂ State.mk (funext fun r => ?_) rfl
  rw [Function.update_apply]
  exact if_congr List.mem_singleton rfl rfl

@[simp] theorem step_const (d : Reg) (v : Val) :
    step s (.const d v) = ⟨Function.update s.regs d v, s.world⟩ := by
  refine congrArg₂ State.mk (funext fun r => ?_) rfl
  rw [Function.update_apply]
  exact if_congr List.mem_singleton rfl rfl

theorem exec_frame (h : r ∉ writes as) : (exec s as).regs r = s.regs r := by
  induction as generalizing s with
  | nil => rfl
  | cons a as ih =>
    rw [writes_cons, List.mem_append, not_or] at h
    rw [exec_cons, ih h.2, step_of_notMem h.1]

/-! ### Renaming -/

/-- An action that reads renamed registers, in a state where these have the values of the old. -/
theorem step_mapSrc (f : Reg → Reg) (hworld : t.world = s.world)
    (hsrc : ∀ r ∈ a.src, t.regs (f r) = s.regs r) :
    step t (a.mapSrc f) = ⟨write a.dst (a.run s.regs s.world).1 t.regs, (step s a).world⟩ := by
  have hrun : (a.mapSrc f).run t.regs t.world = a.run s.regs s.world := by
    rw [hworld]
    exact a.congr _ _ _ hsrc
  rw [step, hrun]
  rfl

/-- One register in the place of another. -/
def rename (x y r : Reg) : Reg := if r = x then y else r

@[simp] theorem rename_self (x y : Reg) : rename x y x = y := if_pos rfl

theorem rename_of_ne {x y : Reg} (h : r ≠ x) : rename x y r = r := if_neg h

section Rename

variable {x y : Reg} {dst : List Reg}

theorem idxOf_rename (hy : y ∉ dst) : (dst.map (rename x y)).idxOf y = dst.idxOf x := by
  induction dst with
  | nil => rfl
  | cons b dst ih =>
    rw [List.mem_cons, not_or] at hy
    by_cases hb : b = x
    · rw [hb, List.map_cons, rename_self, List.idxOf_cons_self, List.idxOf_cons_self]
    · rw [List.map_cons, rename_of_ne hb, List.idxOf_cons_ne _ (Ne.symm hy.1),
        List.idxOf_cons_ne _ hb, ih hy.2]

theorem idxOf_rename_of_ne (hx : r ≠ x) (hy : r ≠ y) :
    (dst.map (rename x y)).idxOf r = dst.idxOf r := by
  induction dst with
  | nil => rfl
  | cons b dst ih =>
    by_cases hb : b = x
    · rw [hb, List.map_cons, rename_self, List.idxOf_cons_ne _ hy.symm,
        List.idxOf_cons_ne _ hx.symm, ih]
    · rw [List.map_cons, rename_of_ne hb]
      by_cases hbr : b = r
      · rw [hbr, List.idxOf_cons_self, List.idxOf_cons_self]
      · rw [List.idxOf_cons_ne _ hbr, List.idxOf_cons_ne _ hbr, ih]

theorem mem_map_rename_of_ne (hx : r ≠ x) (hy : r ≠ y) : r ∈ dst.map (rename x y) ↔ r ∈ dst := by
  rw [List.mem_map]
  constructor
  · rintro ⟨b, hb, heq⟩
    by_cases hbx : b = x
    · rw [hbx, rename_self] at heq
      exact absurd heq.symm hy
    · rw [rename_of_ne hbx] at heq
      exact heq ▸ hb
  · intro hr
    exact ⟨r, hr, rename_of_ne hx⟩

theorem notMem_map_rename (hxy : y ≠ x) : x ∉ dst.map (rename x y) := by
  rw [List.mem_map]
  rintro ⟨b, -, heq⟩
  by_cases hbx : b = x
  · rw [hbx, rename_self] at heq
    exact hxy heq
  · rw [rename_of_ne hbx] at heq
    exact hbx heq

/-! ### Coalescing -/

/-- The second state has in `y` what the first has in `x`. -/
structure Moved (x y : Reg) (s t : State Reg Val World) : Prop where
  regs : ∀ r, r ≠ x → r ≠ y → t.regs r = s.regs r
  moved : t.regs y = s.regs x
  world : t.world = s.world

theorem moved_mapDst (s : State Reg Val World) (hx : x ∈ a.dst) (hy : y ∉ a.dst) :
    Moved x y (step s a) (step s (a.mapDst (rename x y))) := by
  refine ⟨fun r hrx hry => ?_, ?_, rfl⟩
  · exact if_congr (mem_map_rename_of_ne hrx hry) (congrArg _ (idxOf_rename_of_ne hrx hry)) rfl
  · have hmem : y ∈ a.dst.map (rename x y) := List.mem_map.mpr ⟨x, hx, rename_self x y⟩
    rw [step_of_mem (a := a.mapDst (rename x y)) hmem, step_of_mem hx]
    exact congrArg _ (idxOf_rename hy)

theorem Moved.step (h : Moved x y s t) (hx : x ∉ a.dst) (hy : y ∉ a.dst) (hsrc : y ∉ a.src) :
    Moved x y (step s a) (step t (a.mapSrc (rename x y))) := by
  have hread : ∀ r ∈ a.src, t.regs (rename x y r) = s.regs r := fun r hr => by
    by_cases hrx : r = x
    · rw [hrx, rename_self, h.moved]
    · rw [rename_of_ne hrx]
      exact h.regs r hrx fun hry => hsrc (hry ▸ hr)
  rw [step_mapSrc _ h.world hread]
  refine ⟨fun r hrx hry => ?_, ?_, rfl⟩
  · by_cases hmem : r ∈ a.dst
    · exact (if_pos hmem).trans (if_pos hmem).symm
    · exact (if_neg hmem).trans ((h.regs r hrx hry).trans (if_neg hmem).symm)
  · exact (if_neg hy).trans (h.moved.trans (if_neg hx).symm)

theorem Moved.exec (h : Moved x y s t) (has : ∀ a ∈ as, x ∉ a.dst ∧ y ∉ a.dst ∧ y ∉ a.src) :
    Moved x y (exec s as) (exec t (as.map (Action.mapSrc (rename x y)))) := by
  induction as generalizing s t with
  | nil => exact h
  | cons a as ih =>
    obtain ⟨hx, hy, hsrc⟩ := has a List.mem_cons_self
    exact ih (h.step hx hy hsrc) fun a' ha' => has a' (List.mem_cons_of_mem a ha')

/-- A copy whose source an action computes, and whose destination is not read in between. -/
theorem exec_coalesce (s : State Reg Val World) (hx : x ∈ a.dst) (hy : y ∉ a.dst)
    (has : ∀ b ∈ as, x ∉ b.dst ∧ y ∉ b.dst ∧ y ∉ b.src) :
    AgreeOff {x} (exec s (a :: as ++ [Action.copy y x]))
      (exec s (a.mapDst (rename x y) :: as.map (Action.mapSrc (rename x y)))) := by
  have hmoved := (moved_mapDst s hx hy).exec has
  rw [List.cons_append, exec_cons, exec_append, exec_cons, exec_nil, step_copy, exec_cons]
  refine ⟨fun r hr => ?_, hmoved.world.symm⟩
  by_cases hry : r = y
  · rw [hry]
    exact (Function.update_self _ _ _).trans hmoved.moved.symm
  · exact (Function.update_of_ne hry _ _).trans (hmoved.regs r hr hry).symm

end Rename

end

end StraightLine
