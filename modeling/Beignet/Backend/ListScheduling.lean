/-
List scheduling: the loop of `postScheduleDAG` on the DAG of a block.

An edge of the DAG is released when its parent is pre-retired, for write-after-read
edges, or has left the active list, for the others.  The invariant `Inv` says that
`refNum` counts the edges that are not released yet, that the ready list holds exactly the
instructions that wait for nothing, and that the instruction list has every parent before
its children.

* `Inv.retireOne`, `Inv.issue` — the rounds of the two loops keep the invariant;
* `Inv.step` — a round schedules an instruction or lowers the cycles that active
  instructions still have to wait;
* `Inv.postScheduleDAG` — so the loop ends, with all instructions scheduled.
-/
import Beignet.Backend.DependencyDag

open Precedence

namespace Backend

namespace Schedule

variable {n : ℕ} {d : Fin n → ScheduleDAGNode n} {s : Schedule n}

/-! ### Releasing the children of a node -/

section Release

variable {p : DepMode → Bool}

/-- The children released by a round over `children`. -/
def releasedNodes (p : DepMode → Bool) (children : List (ScheduleListNode n)) : List (Fin n) :=
  (children.filter fun l => p l.depMode).map ScheduleListNode.node

theorem releasedNodes_cons (l : ScheduleListNode n) (children : List (ScheduleListNode n)) :
    releasedNodes p (l :: children) =
      if p l.depMode then l.node :: releasedNodes p children else releasedNodes p children := by
  unfold releasedNodes
  by_cases h : p l.depMode = true
  · simp [h]
  · simp [h]

theorem releasedNodes_subset {children : List (ScheduleListNode n)} {c : Fin n}
    (h : c ∈ releasedNodes p children) : c ∈ children.map ScheduleListNode.node := by
  obtain ⟨l, hl, rfl⟩ := List.mem_map.mp h
  exact List.mem_map_of_mem (List.mem_of_mem_filter hl)

/-- A child becomes ready when it is released and waits for nothing else. -/
def becomesReady (p : DepMode → Bool) (s : Schedule n) (l : ScheduleListNode n) : Bool :=
  p l.depMode && ((s.insnNodes l.node).refNum - 1 = 0)

/-- The state after a round over `children`. -/
def afterRelease (p : DepMode → Bool) (children : List (ScheduleListNode n)) (s : Schedule n) :
    Schedule n :=
  { s with
    insnNodes := fun c => { s.insnNodes c with
      refNum := (s.insnNodes c).refNum - if c ∈ releasedNodes p children then 1 else 0 }
    ready := s.ready ++ children.filter (becomesReady p s) }

theorem decRefNum_insnNodes_of_ne {node c : Fin n} (h : c ≠ node) :
    (s.decRefNum node).insnNodes c = s.insnNodes c := Function.update_of_ne h _ _

theorem becomesReady_decRefNum {child : Fin n} {children : List (ScheduleListNode n)}
    (h : child ∉ children.map ScheduleListNode.node) :
    ∀ l ∈ children, becomesReady p (s.decRefNum child) l = becomesReady p s l := by
  intro l hl
  have hne : l.node ≠ child := fun heq => h (heq ▸ List.mem_map_of_mem hl)
  rw [becomesReady, becomesReady, decRefNum_insnNodes_of_ne hne]

theorem afterRelease_insnNodes_decRefNum {child : ScheduleListNode n}
    {children : List (ScheduleListNode n)} (hp : p child.depMode = true)
    (h : child.node ∉ children.map ScheduleListNode.node) :
    (afterRelease p children (s.decRefNum child.node)).insnNodes =
      (afterRelease p (child :: children) s).insnNodes := by
  have hnode : child.node ∉ releasedNodes p children := fun hc => h (releasedNodes_subset hc)
  funext c
  by_cases hc : c = child.node
  · simp [afterRelease, decRefNum, releasedNodes_cons, hp, hnode, hc]
  · simp [afterRelease, decRefNum, releasedNodes_cons, hp, hc]

theorem releaseChildren_eq (children : List (ScheduleListNode n)) :
    ∀ s : Schedule n, (children.map ScheduleListNode.node).Nodup →
      releaseChildren p children s =
        (children.filter fun l => !becomesReady p s l, s.afterRelease p children) := by
  induction children with
  | nil =>
    intro s _
    simp [releaseChildren, afterRelease, releasedNodes]
  | cons child children ih =>
    intro s hnd
    obtain ⟨hnotin, hnd⟩ := List.nodup_cons.mp hnd
    by_cases hp : p child.depMode = true
    · -- a round changes the record of its own child only
      have hsame := becomesReady_decRefNum (p := p) (s := s) hnotin
      have htable := afterRelease_insnNodes_decRefNum (s := s) hp hnotin
      have hready : children.filter (becomesReady p (s.decRefNum child.node)) =
          children.filter (becomesReady p s) := List.filter_congr hsame
      have hkept : (children.filter fun l => !becomesReady p (s.decRefNum child.node) l) =
          children.filter fun l => !becomesReady p s l :=
        List.filter_congr fun l hl => congrArg (!·) (hsame l hl)
      have href : ((s.decRefNum child.node).insnNodes child.node).refNum =
          (s.insnNodes child.node).refNum - 1 := by simp [decRefNum]
      rw [releaseChildren, if_pos hp]
      simp only [href]
      by_cases hz : (s.insnNodes child.node).refNum - 1 = 0
      · have hbr : becomesReady p s child = true := by simp [becomesReady, hp, hz]
        rw [if_pos hz, ih _ hnd, List.filter_cons_of_neg (by simp [hbr])]
        refine Prod.ext hkept (Schedule.ext htable ?_ rfl rfl rfl rfl)
        show (s.ready ++ [child]) ++ children.filter (becomesReady p (s.decRefNum child.node)) =
          s.ready ++ (child :: children).filter (becomesReady p s)
        rw [hready, List.filter_cons_of_pos hbr, List.append_assoc, List.singleton_append]
      · have hbr : becomesReady p s child = false := by simp [becomesReady, hz]
        rw [if_neg hz, ih _ hnd, List.filter_cons_of_pos (by simp [hbr])]
        refine Prod.ext (congrArg (child :: ·) hkept) (Schedule.ext htable ?_ rfl rfl rfl rfl)
        show s.ready ++ children.filter (becomesReady p (s.decRefNum child.node)) =
          s.ready ++ (child :: children).filter (becomesReady p s)
        rw [hready, List.filter_cons_of_neg (by simp [hbr])]
    · have hbr : becomesReady p s child = false := by simp [becomesReady, hp]
      rw [releaseChildren, if_neg hp, ih s hnd]
      simp [afterRelease, releasedNodes_cons, hp, hbr]

/-- All that releasing the children of `a` does. -/
theorem release_spec {a : Fin n} (p : DepMode → Bool)
    (hnd : ((s.insnNodes a).children.map ScheduleListNode.node).Nodup) :
    s.release p a =
      { s with
        insnNodes := fun c => { s.insnNodes c with
          children := if c = a then (s.insnNodes a).children.filter fun l => !becomesReady p s l
            else (s.insnNodes c).children
          refNum := (s.insnNodes c).refNum -
            if c ∈ releasedNodes p (s.insnNodes a).children then 1 else 0 }
        ready := s.ready ++ (s.insnNodes a).children.filter (becomesReady p s) } := by
  rw [release, releaseChildren_eq _ _ hnd]
  refine Schedule.ext (funext fun c => ?_) rfl rfl rfl rfl rfl
  by_cases hc : c = a
  · simp [afterRelease, hc]
  · simp [afterRelease, hc]

end Release

/-! ### The invariant -/

/-- The edges of mode `m` out of `a` are released. -/
def Released (s : Schedule n) (a : Fin n) (m : DepMode) : Prop :=
  if m = .writeAfterRead then (s.insnNodes a).preRetired = true
  else a ∈ s.insnList ∧ a ∉ s.active.map ScheduleListNode.node

instance (s : Schedule n) (a : Fin n) (m : DepMode) : Decidable (Released s a m) :=
  inferInstanceAs (Decidable (if m = .writeAfterRead then (s.insnNodes a).preRetired = true
    else a ∈ s.insnList ∧ a ∉ s.active.map ScheduleListNode.node))

/-- The parents that `c` still waits for. -/
def pending (d : Fin n → ScheduleDAGNode n) (s : Schedule n) (c : Fin n) : Finset (Fin n) :=
  Finset.univ.filter fun a => ∃ l ∈ (d a).children, l.node = c ∧ ¬ Released s a l.depMode

theorem mem_pending {a c : Fin n} :
    a ∈ pending d s c ↔ ∃ l ∈ (d a).children, l.node = c ∧ ¬ Released s a l.depMode := by
  simp [pending]

/-- The part of the invariant about `refNum` and the ready list. -/
structure Counted (d : Fin n → ScheduleDAGNode n) (s : Schedule n) : Prop where
  refNum : ∀ c, (s.insnNodes c).refNum = (pending d s c).card
  ready_nodup : (s.ready.map ScheduleListNode.node).Nodup
  ready : ∀ c, c ∈ s.ready.map ScheduleListNode.node ↔
    c ∉ s.insnList ∧ (s.insnNodes c).refNum = 0
  scheduled : ∀ c ∈ s.insnList, (s.insnNodes c).refNum = 0

/-- The whole invariant, for the scheduling of the DAG `d`. -/
structure Inv (d : Fin n → ScheduleDAGNode n) (s : Schedule n) : Prop extends Counted d s where
  insnList_nodup : s.insnList.Nodup
  insnNum : s.insnNum + s.insnList.length = n
  active_nodup : (s.active.map ScheduleListNode.node).Nodup
  active : ∀ l ∈ s.active, l.node ∈ s.insnList
  /-- a scheduled instruction stays active until its first round -/
  fresh : ∀ a ∈ s.insnList, (s.insnNodes a).preRetired = false →
    a ∈ s.active.map ScheduleListNode.node
  preRetired : ∀ a, (s.insnNodes a).preRetired = true → a ∈ s.insnList
  sublist : ∀ a, ((s.insnNodes a).children).Sublist (d a).children
  /-- no write-after-read child is lost before that round … -/
  children : ∀ a, (s.insnNodes a).preRetired = false → (s.insnNodes a).children = (d a).children
  /-- … and no other child as long as the instruction is active -/
  otherChildren : ∀ l ∈ s.active,
    ((s.insnNodes l.node).children.filter fun l => l.depMode ≠ .writeAfterRead) =
      (d l.node).children.filter fun l => l.depMode ≠ .writeAfterRead
  ordered : ∀ a c, Depends d a c → c ∈ s.insnList → Before s.insnList a c

/-! ### Releasing keeps the counts -/

/-- `s0` differs from `s` in that the edges out of `a` with modes `p` count as released. -/
structure Marks (p : DepMode → Bool) (a : Fin n) (s s0 : Schedule n) : Prop where
  refNum : ∀ c, (s0.insnNodes c).refNum = (s.insnNodes c).refNum
  ready : s0.ready = s.ready
  insnList : s0.insnList = s.insnList
  before : ∀ m, p m = true → ¬ Released s a m
  released : ∀ x m, Released s0 x m ↔ Released s x m ∨ x = a ∧ p m = true

theorem mem_releasedNodes {p : DepMode → Bool} {children : List (ScheduleListNode n)}
    {c : Fin n} : c ∈ releasedNodes p children ↔
      ∃ l ∈ children, l.node = c ∧ p l.depMode = true := by
  simp only [releasedNodes, List.mem_map, List.mem_filter, and_assoc]
  constructor
  · rintro ⟨l, hl, hp, hlc⟩
    exact ⟨l, hl, hlc, hp⟩
  · rintro ⟨l, hl, hlc, hp⟩
    exact ⟨l, hl, hp, hlc⟩

theorem Marks.pending {p : DepMode → Bool} {a : Fin n} {s0 : Schedule n} (h : Marks p a s s0)
    (hd : Dag d) (c : Fin n) :
    pending d s0 c = if c ∈ releasedNodes p (d a).children then (pending d s c).erase a
      else pending d s c := by
  ext x
  have hx : x ∈ Schedule.pending d s0 c ↔ ∃ l ∈ (d x).children, l.node = c ∧
      ¬ Released s x l.depMode ∧ ¬ (x = a ∧ p l.depMode = true) := by
    rw [mem_pending]
    simp only [h.released, not_or]
  by_cases hc : c ∈ releasedNodes p (d a).children
  · rw [if_pos hc, Finset.mem_erase, hx, mem_pending]
    constructor
    · rintro ⟨l, hl, hlc, hrel, hp⟩
      refine ⟨?_, l, hl, hlc, hrel⟩
      -- a child is listed once, so this is the edge that is released
      rintro rfl
      obtain ⟨l', hl', hlc', hp'⟩ := mem_releasedNodes.mp hc
      have heq := List.inj_on_of_nodup_map (hd.nodup x) hl hl' (hlc.trans hlc'.symm)
      exact hp ⟨rfl, heq ▸ hp'⟩
    · rintro ⟨hxa, l, hl, hlc, hrel⟩
      exact ⟨l, hl, hlc, hrel, fun hp => hxa hp.1⟩
  · rw [if_neg hc, hx, mem_pending]
    constructor
    · rintro ⟨l, hl, hlc, hrel, -⟩
      exact ⟨l, hl, hlc, hrel⟩
    · rintro ⟨l, hl, hlc, hrel⟩
      refine ⟨l, hl, hlc, hrel, ?_⟩
      rintro ⟨rfl, hp⟩
      exact hc (mem_releasedNodes.mpr ⟨l, hl, hlc, hp⟩)

/-- A child that is being released was waiting. -/
theorem Marks.mem_pending {p : DepMode → Bool} {a c : Fin n} {s0 : Schedule n}
    (h : Marks p a s s0) (hc : c ∈ releasedNodes p (d a).children) :
    a ∈ Schedule.pending d s c := by
  obtain ⟨l, hl, hlc, hp⟩ := mem_releasedNodes.mp hc
  exact Schedule.mem_pending.mpr ⟨l, hl, hlc, h.before _ hp⟩

theorem Counted.release {p : DepMode → Bool} {a : Fin n} {s0 : Schedule n} (hc : Counted d s)
    (hd : Dag d) (h : Marks p a s s0) (hsub : ((s0.insnNodes a).children).Sublist (d a).children)
    (hall : releasedNodes p (s0.insnNodes a).children = releasedNodes p (d a).children) :
    Counted d (s0.release p a) := by
  have hnd : ((s0.insnNodes a).children.map ScheduleListNode.node).Nodup :=
    (hd.nodup a).sublist (hsub.map _)
  have hwaits : ∀ c ∈ releasedNodes p (d a).children, 0 < (s.insnNodes c).refNum := by
    intro c hcr
    rw [hc.refNum]
    exact Finset.card_pos.mpr ⟨a, h.mem_pending hcr⟩
  have hready : ∀ c, c ∈ ((s0.insnNodes a).children.filter (becomesReady p s0)).map
      ScheduleListNode.node ↔
      c ∈ releasedNodes p (d a).children ∧ (s.insnNodes c).refNum - 1 = 0 := by
    intro c
    rw [← hall, mem_releasedNodes]
    simp only [List.mem_map, List.mem_filter, becomesReady, Bool.and_eq_true, decide_eq_true_eq,
      h.refNum]
    constructor
    · rintro ⟨l, ⟨hl, hp, hz⟩, rfl⟩
      exact ⟨⟨l, hl, rfl, hp⟩, hz⟩
    · rintro ⟨⟨l, hl, rfl, hp⟩, hz⟩
      exact ⟨l, ⟨hl, hp, hz⟩, rfl⟩
  rw [release_spec p hnd]
  constructor
  · intro c
    show (s0.insnNodes c).refNum - _ = (Schedule.pending d s0 c).card
    rw [hall, h.refNum, h.pending hd c, hc.refNum]
    by_cases hcr : c ∈ releasedNodes p (d a).children
    · rw [if_pos hcr, if_pos hcr, Finset.card_erase_of_mem (h.mem_pending hcr)]
    · rw [if_neg hcr, if_neg hcr, Nat.sub_zero]
  · show (((s0.ready ++ _).map ScheduleListNode.node)).Nodup
    rw [h.ready, List.map_append]
    refine hc.ready_nodup.append (hnd.sublist (List.filter_sublist.map _)) ?_
    -- what becomes ready was waiting until now
    intro c hold hnew
    have := hwaits c ((hready c).mp hnew).1
    have := ((hc.ready c).mp hold).2
    omega
  · intro c
    show c ∈ (s0.ready ++ _).map ScheduleListNode.node ↔
      c ∉ s0.insnList ∧ (s0.insnNodes c).refNum - _ = 0
    rw [h.ready, List.map_append, List.mem_append, hready, hc.ready, h.insnList, h.refNum, hall]
    by_cases hcr : c ∈ releasedNodes p (d a).children
    · have hpos := hwaits c hcr
      have hnot : c ∉ s.insnList := fun hin => hpos.ne' (hc.scheduled c hin)
      simp [hcr, hnot, hpos.ne']
    · simp [hcr]
  · intro c hin
    have := hc.scheduled c (h.insnList ▸ hin)
    show (s0.insnNodes c).refNum - _ = 0
    rw [h.refNum, this, Nat.zero_sub]

/-! ### Retiring -/

/-- Taking the write-after-read children away leaves the others. -/
theorem filter_kept {p q : DepMode → Bool} (hpq : ∀ m, q m = true → p m = false)
    (children : List (ScheduleListNode n)) :
    ((children.filter fun l => !becomesReady p s l).filter fun l => q l.depMode) =
      children.filter fun l => q l.depMode := by
  rw [List.filter_filter]
  refine List.filter_congr fun l _ => ?_
  cases hq : q l.depMode with
  | false => rfl
  | true => simp [becomesReady, hpq _ hq]

theorem marks_setPreRetired {a : Fin n} (hpre : (s.insnNodes a).preRetired = false) :
    Marks (fun m => m = .writeAfterRead) a s (s.setPreRetired a) := by
  constructor
  · intro c
    by_cases hca : c = a
    · simp [setPreRetired, hca]
    · simp [setPreRetired, hca]
  · rfl
  · rfl
  · intro m hm
    simp only [decide_eq_true_eq] at hm
    simp [Released, hm, hpre]
  · intro x m
    by_cases hm : m = .writeAfterRead
    · by_cases hx : x = a
      · simp [Released, setPreRetired, hm, hx]
      · simp [Released, setPreRetired, hm, hx]
    · simp [Released, setPreRetired, hm]

theorem Inv.preRetire {a : Fin n} (h : Inv d s) (hd : Dag d)
    (ha : a ∈ s.active.map ScheduleListNode.node)
    (hpre : (s.insnNodes a).preRetired = false) : Inv d (s.preRetire a) := by
  have hin : a ∈ s.insnList := by
    obtain ⟨l, hl, rfl⟩ := List.mem_map.mp ha
    exact h.active l hl
  have hset : ∀ c, ((s.setPreRetired a).insnNodes c).children = (s.insnNodes c).children := by
    intro c
    by_cases hc : c = a
    · simp [setPreRetired, hc]
    · simp [setPreRetired, hc]
  have hchildren := (hset a).trans (h.children a hpre)
  have hcounted := h.toCounted.release hd (marks_setPreRetired hpre) (by rw [hchildren])
    (by rw [hchildren])
  have hspec := release_spec (s := s.setPreRetired a) (a := a) (fun m => m = .writeAfterRead)
    (by rw [hchildren]; exact hd.nodup a)
  have hnew : ∀ c, ((s.preRetire a).insnNodes c).children =
      if c = a then (d a).children.filter fun l =>
        !becomesReady (fun m => m = .writeAfterRead) (s.setPreRetired a) l
      else (s.insnNodes c).children := by
    intro c
    rw [Schedule.preRetire, hspec, ← hchildren, ← hset c]
  have hpreRetired : ∀ c, ((s.preRetire a).insnNodes c).preRetired = true ↔
      c = a ∨ (s.insnNodes c).preRetired = true := by
    intro c
    rw [Schedule.preRetire, hspec]
    by_cases hc : c = a
    · simp [setPreRetired, hc]
    · simp [setPreRetired, hc]
  have hsame : (s.preRetire a).active = s.active ∧ (s.preRetire a).insnList = s.insnList ∧
      (s.preRetire a).insnNum = s.insnNum := by
    rw [Schedule.preRetire, hspec]
    exact ⟨rfl, rfl, rfl⟩
  obtain ⟨hactive, hlist, hnum⟩ := hsame
  refine ⟨hcounted, ?_, ?_, ?_, ?_, ?_, ?_, ?_, ?_, ?_, ?_⟩
  · rw [hlist]
    exact h.insnList_nodup
  · rw [hlist, hnum]
    exact h.insnNum
  · rw [hactive]
    exact h.active_nodup
  · rw [hactive, hlist]
    exact h.active
  · intro c hc hpc
    rw [hactive]
    rw [hlist] at hc
    refine h.fresh c hc ?_
    rw [← Bool.not_eq_true, hpreRetired] at hpc
    simpa using fun hpc' => hpc (.inr hpc')
  · intro c hpc
    rw [hlist]
    obtain rfl | hpc := (hpreRetired c).mp hpc
    · exact hin
    · exact h.preRetired c hpc
  · intro c
    rw [hnew]
    split
    · next hc => exact hc ▸ List.filter_sublist
    · exact h.sublist c
  · intro c hpc
    have hnot : ¬ (c = a ∨ (s.insnNodes c).preRetired = true) := by
      rw [← hpreRetired, hpc]
      exact Bool.false_ne_true
    rw [hnew, if_neg fun hc => hnot (.inl hc)]
    exact h.children c (by simpa using fun hpc' => hnot (.inr hpc'))
  · intro l hl
    rw [hactive] at hl
    rw [hnew]
    split
    · next hc =>
      rw [hc]
      exact filter_kept (q := fun m => m ≠ .writeAfterRead) (by simp) _
    · exact h.otherChildren l hl
  · rw [hlist]
    exact h.ordered

theorem mem_map_erase {active : List (ScheduleListNode n)}
    (hnd : (active.map ScheduleListNode.node).Nodup) {l : ScheduleListNode n} (hl : l ∈ active)
    {x : Fin n} : x ∈ (active.erase l).map ScheduleListNode.node ↔
      x ∈ active.map ScheduleListNode.node ∧ x ≠ l.node := by
  simp only [List.mem_map, (List.Nodup.of_map _ hnd).mem_erase_iff]
  constructor
  · rintro ⟨l', ⟨hne, hl'⟩, rfl⟩
    exact ⟨⟨l', hl', rfl⟩, fun heq => hne (List.inj_on_of_nodup_map hnd hl' hl heq)⟩
  · rintro ⟨⟨l', hl', rfl⟩, hne⟩
    exact ⟨l', ⟨fun heq => hne (congrArg _ heq), hl'⟩, rfl⟩

theorem marks_eraseActive {l : ScheduleListNode n}
    (hnd : (s.active.map ScheduleListNode.node).Nodup) (hl : l ∈ s.active)
    (hin : l.node ∈ s.insnList) :
    Marks (fun m => m ≠ .writeAfterRead) l.node s (s.eraseActive l) := by
  have hmem : l.node ∈ s.active.map ScheduleListNode.node := List.mem_map_of_mem hl
  constructor
  · exact fun _ => rfl
  · rfl
  · rfl
  · intro m hm
    simp only [ne_eq, decide_not, Bool.not_eq_true', decide_eq_false_iff_not] at hm
    rw [Released, if_neg hm]
    exact fun hrel => hrel.2 hmem
  · intro x m
    by_cases hm : m = .writeAfterRead
    · simp [Released, eraseActive, hm]
    · have herase := mem_map_erase hnd hl (x := x)
      by_cases hx : x = l.node
      · subst hx
        rw [Released, Released, if_neg hm, if_neg hm]
        simp [eraseActive, herase, hm, hin]
      · rw [Released, Released, if_neg hm, if_neg hm, eraseActive, herase]
        simp [hx]

/-- The completion of a pre-retired instruction. -/
def finish (s : Schedule n) (l : ScheduleListNode n) : Schedule n :=
  (s.eraseActive l).release (fun m => m ≠ .writeAfterRead) l.node

theorem Inv.finish {l : ScheduleListNode n} (h : Inv d s) (hd : Dag d) (hl : l ∈ s.active)
    (hpre : (s.insnNodes l.node).preRetired = true) : Inv d (s.finish l) := by
  have hsub : ((s.eraseActive l).insnNodes l.node).children.Sublist (d l.node).children :=
    h.sublist l.node
  have hcounted := h.toCounted.release hd (marks_eraseActive h.active_nodup hl (h.active l hl))
    hsub (congrArg (List.map _) (h.otherChildren l hl))
  have hspec := release_spec (s := s.eraseActive l) (a := l.node)
    (fun m => m ≠ .writeAfterRead) ((hd.nodup l.node).sublist (hsub.map _))
  have hnew : ∀ c, ((s.finish l).insnNodes c).children =
      if c = l.node then (s.insnNodes l.node).children.filter fun l' =>
        !becomesReady (fun m => m ≠ .writeAfterRead) (s.eraseActive l) l'
      else (s.insnNodes c).children := by
    intro c
    rw [Schedule.finish, hspec]
    rfl
  have hpreRetired : ∀ c, ((s.finish l).insnNodes c).preRetired = (s.insnNodes c).preRetired := by
    intro c
    rw [Schedule.finish, hspec]
    rfl
  have hsame : (s.finish l).active = s.active.erase l ∧ (s.finish l).insnList = s.insnList ∧
      (s.finish l).insnNum = s.insnNum := by
    rw [Schedule.finish, hspec]
    exact ⟨rfl, rfl, rfl⟩
  obtain ⟨hactive, hlist, hnum⟩ := hsame
  refine ⟨hcounted, ?_, ?_, ?_, ?_, ?_, ?_, ?_, ?_, ?_, ?_⟩
  · rw [hlist]
    exact h.insnList_nodup
  · rw [hlist, hnum]
    exact h.insnNum
  · rw [hactive]
    exact h.active_nodup.sublist (List.erase_sublist.map _)
  · rw [hactive, hlist]
    exact fun l' hl' => h.active l' (List.mem_of_mem_erase hl')
  · intro c hc hpc
    rw [hlist] at hc
    rw [hpreRetired] at hpc
    rw [hactive, mem_map_erase h.active_nodup hl]
    refine ⟨h.fresh c hc hpc, ?_⟩
    rintro rfl
    simp [hpre] at hpc
  · intro c hpc
    rw [hpreRetired] at hpc
    rw [hlist]
    exact h.preRetired c hpc
  · intro c
    rw [hnew]
    split
    · next hc =>
      subst hc
      exact List.filter_sublist.trans (h.sublist l.node)
    · exact h.sublist c
  · intro c hpc
    rw [hpreRetired] at hpc
    have hne : c ≠ l.node := by
      rintro rfl
      simp [hpre] at hpc
    rw [hnew, if_neg hne]
    exact h.children c hpc
  · intro l' hl'
    rw [hactive] at hl'
    have hne : l'.node ≠ l.node :=
      ((mem_map_erase h.active_nodup hl).mp (List.mem_map_of_mem hl')).2
    rw [hnew, if_neg hne]
    exact h.otherChildren l' (List.mem_of_mem_erase hl')
  · rw [hlist]
    exact h.ordered

/-- What retiring does not touch. -/
structure Frame (s t : Schedule n) : Prop where
  cycle : t.cycle = s.cycle
  insnNum : t.insnNum = s.insnNum
  retiredCycle : ∀ c, (t.insnNodes c).retiredCycle = (s.insnNodes c).retiredCycle
  active : t.active.Sublist s.active

theorem Frame.refl (s : Schedule n) : Frame s s := ⟨rfl, rfl, fun _ => rfl, .refl _⟩

theorem Frame.trans {s t u : Schedule n} (hst : Frame s t) (htu : Frame t u) : Frame s u where
  cycle := htu.cycle.trans hst.cycle
  insnNum := htu.insnNum.trans hst.insnNum
  retiredCycle c := (htu.retiredCycle c).trans (hst.retiredCycle c)
  active := htu.active.trans hst.active

theorem frame_release {a : Fin n} (p : DepMode → Bool)
    (hnd : ((s.insnNodes a).children.map ScheduleListNode.node).Nodup) :
    Frame s (s.release p a) := by
  rw [release_spec p hnd]
  exact ⟨rfl, rfl, fun _ => rfl, .refl _⟩

theorem Inv.children_nodup (h : Inv d s) (hd : Dag d) (a : Fin n) :
    ((s.insnNodes a).children.map ScheduleListNode.node).Nodup :=
  (hd.nodup a).sublist ((h.sublist a).map _)

theorem Inv.frame_preRetire (h : Inv d s) (hd : Dag d) (a : Fin n) :
    Frame s (s.preRetire a) ∧ (s.preRetire a).active = s.active ∧
      ((s.preRetire a).insnNodes a).preRetired = true := by
  have hnd : (((s.setPreRetired a).insnNodes a).children.map ScheduleListNode.node).Nodup := by
    simpa [setPreRetired] using h.children_nodup hd a
  have hset : Frame s (s.setPreRetired a) := by
    refine ⟨rfl, rfl, fun c => ?_, .refl _⟩
    by_cases hc : c = a
    · simp [setPreRetired, hc]
    · simp [setPreRetired, hc]
  refine ⟨hset.trans (frame_release _ hnd), ?_, ?_⟩
  · rw [Schedule.preRetire, release_spec _ hnd]
    rfl
  · rw [Schedule.preRetire, release_spec _ hnd]
    simp [setPreRetired]

theorem Inv.frame_finish (h : Inv d s) (hd : Dag d) (l : ScheduleListNode n) :
    Frame s (s.finish l) ∧ (s.finish l).active = s.active.erase l := by
  have herase : Frame s (s.eraseActive l) := ⟨rfl, rfl, fun _ => rfl, List.erase_sublist⟩
  have hnd : (((s.eraseActive l).insnNodes l.node).children.map
    ScheduleListNode.node).Nodup := h.children_nodup hd l.node
  refine ⟨herase.trans (frame_release _ hnd), ?_⟩
  rw [Schedule.finish, release_spec _ hnd]
  rfl

/-- Leaving the active list without children is completion too. -/
theorem eraseActive_eq_finish {l : ScheduleListNode n}
    (h : (s.insnNodes l.node).children.length = 0) : s.eraseActive l = s.finish l := by
  have hnil : ((s.eraseActive l).insnNodes l.node).children = [] := List.length_eq_zero_iff.mp h
  rw [finish, release_spec _ (by simp [hnil]), hnil]
  refine Schedule.ext (funext fun c => ScheduleDAGNode.ext ?_ (by simp [releasedNodes]) rfl rfl rfl)
    (by simp) rfl rfl rfl rfl
  by_cases hc : c = l.node
  · simpa [hc] using hnil
  · simp [hc]

/-- A round either completes the instruction or leaves it active, and it leaves it only
when its cycle has not come. -/
theorem Inv.retireOne {l : ScheduleListNode n} (h : Inv d s) (hd : Dag d) (hl : l ∈ s.active) :
    Inv d (s.retireOne l) ∧ Frame s (s.retireOne l) ∧
      ((s.retireOne l).active = s.active.erase l ∨
        (s.retireOne l).active = s.active ∧ ¬ (s.insnNodes l.node).retiredCycle ≤ s.cycle) := by
  -- the state after pre-retiring, if there is any
  obtain ⟨t, ht, hst, hactive, hpre, heq⟩ : ∃ t, Inv d t ∧ Frame s t ∧ t.active = s.active ∧
      (t.insnNodes l.node).preRetired = true ∧
      (s.retireOne l = t.finish l ∨ s.retireOne l = t.complete l) := by
    by_cases hpre : (s.insnNodes l.node).preRetired = true
    · exact ⟨s, h, .refl s, rfl, hpre, .inr (by rw [Schedule.retireOne, if_pos hpre])⟩
    · obtain ⟨hframe, hactive, hpre'⟩ := h.frame_preRetire hd l.node
      refine ⟨s.preRetire l.node,
        h.preRetire hd (List.mem_map_of_mem hl) (by simpa using hpre), hframe, hactive, hpre', ?_⟩
      rw [Schedule.retireOne, if_neg hpre]
      by_cases hlen : ((s.preRetire l.node).insnNodes l.node).children.length = 0
      · exact .inl ((if_pos hlen).trans (eraseActive_eq_finish hlen))
      · exact .inr (if_neg hlen)
  have hl' : l ∈ t.active := hactive ▸ hl
  have hfinish : s.retireOne l = t.finish l → Inv d (s.retireOne l) ∧ Frame s (s.retireOne l) ∧
      (s.retireOne l).active = s.active.erase l := by
    intro hr
    obtain ⟨hframe, herase⟩ := ht.frame_finish hd l
    rw [hr]
    exact ⟨ht.finish hd hl' hpre, hst.trans hframe, by rw [herase, hactive]⟩
  obtain hr | hr := heq
  · obtain ⟨hinv, hframe, herase⟩ := hfinish hr
    exact ⟨hinv, hframe, .inl herase⟩
  · by_cases hcycle : (t.insnNodes l.node).retiredCycle ≤ t.cycle
    · obtain ⟨hinv, hframe, herase⟩ := hfinish (hr.trans (if_pos hcycle))
      exact ⟨hinv, hframe, .inl herase⟩
    · rw [hr, Schedule.complete, if_neg hcycle]
      rw [hst.retiredCycle, hst.cycle] at hcycle
      exact ⟨ht, hst, .inr ⟨hactive, hcycle⟩⟩

theorem Inv.retire (h : Inv d s) (hd : Dag d) :
    Inv d s.retire ∧ Frame s s.retire ∧
      ∀ l ∈ s.retire.active, ¬ (s.insnNodes l.node).retiredCycle ≤ s.cycle := by
  -- `todo` is the rest of the active list as the loop found it
  have key : ∀ (todo : List (ScheduleListNode n)) (t : Schedule n), Inv d t → Frame s t →
      todo.Nodup → (∀ l ∈ todo, l ∈ t.active) →
      (∀ l ∈ t.active, l ∈ todo ∨ ¬ (s.insnNodes l.node).retiredCycle ≤ s.cycle) →
      Inv d (todo.foldl Schedule.retireOne t) ∧ Frame s (todo.foldl Schedule.retireOne t) ∧
        ∀ l ∈ (todo.foldl Schedule.retireOne t).active,
          ¬ (s.insnNodes l.node).retiredCycle ≤ s.cycle := by
    intro todo
    induction todo with
    | nil =>
      intro t ht hst _ _ hrest
      exact ⟨ht, hst, fun l hl => (hrest l hl).resolve_left (by simp)⟩
    | cons l todo ih =>
      intro t ht hst hnd hmem hrest
      obtain ⟨hl, hnd⟩ := List.nodup_cons.mp hnd
      obtain ⟨hinv, hframe, hactive⟩ := ht.retireOne hd (hmem l List.mem_cons_self)
      have hactive_nodup : t.active.Nodup := .of_map _ ht.active_nodup
      refine ih _ hinv (hst.trans hframe) hnd ?_ ?_
      · intro l' hl'
        have hne : l' ≠ l := fun heq => hl (heq ▸ hl')
        have hold := hmem l' (List.mem_cons_of_mem _ hl')
        obtain herase | ⟨hkeep, -⟩ := hactive
        · rw [herase]
          exact (List.mem_erase_of_ne hne).mpr hold
        · rwa [hkeep]
      · intro l' hl'
        obtain herase | ⟨hkeep, hcycle⟩ := hactive
        · rw [herase, hactive_nodup.mem_erase_iff] at hl'
          exact (hrest l' hl'.2).imp_left fun h => (List.mem_cons.mp h).resolve_left hl'.1
        · rw [hkeep] at hl'
          obtain h | h := hrest l' hl'
          · obtain rfl | h := List.mem_cons.mp h
            · rw [hst.retiredCycle, hst.cycle] at hcycle
              exact .inr hcycle
            · exact .inl h
          · exact .inr h
  exact key s.active s h (.refl s) (.of_map _ h.active_nodup) (fun _ hl => hl) fun _ hl => .inl hl

/-! ### Issuing -/

theorem cheapest_lt (nodes : Fin n → ScheduleDAGNode n) (ready : List (ScheduleListNode n)) :
    ∀ i minCost best, cheapest nodes ready i minCost best = best ∨
      cheapest nodes ready i minCost best < i + ready.length := by
  induction ready with
  | nil => exact fun _ _ _ => .inl rfl
  | cons l ready ih =>
    intro i minCost best
    rw [cheapest]
    simp only [List.length_cons]
    split
    · obtain h | h := ih (i + 1) (cost l.depMode (nodes l.node).readDistance) i
      · right
        omega
      · right
        omega
    · obtain h | h := ih (i + 1) minCost best
      · exact .inl h
      · right
        omega

theorem ready_eq_nil (h : s.ready[cheapest s.insnNodes s.ready 0 1000 0]? = none) :
    s.ready = [] := by
  rw [List.getElem?_eq_none_iff] at h
  obtain hbest | hlt := cheapest_lt s.insnNodes s.ready 0 1000 0
  · rw [hbest] at h
    exact List.length_eq_zero_iff.mp (Nat.le_zero.mp h)
  · omega

/-- All parents of an instruction that waits for nothing are scheduled. -/
theorem Inv.parents_scheduled (h : Inv d s) {a c : Fin n} (hz : (s.insnNodes c).refNum = 0)
    (hac : Depends d a c) : a ∈ s.insnList := by
  obtain ⟨l, hl, hlc⟩ := List.mem_map.mp hac
  have hempty : pending d s c = ∅ := Finset.card_eq_zero.mp ((h.refNum c).symm.trans hz)
  have hrel : Released s a l.depMode := by
    by_contra hrel
    have : a ∈ pending d s c := mem_pending.mpr ⟨l, hl, hlc, hrel⟩
    simp [hempty] at this
  unfold Released at hrel
  split at hrel
  · exact h.preRetired a hrel
  · exact hrel.1

theorem Inv.idle (h : Inv d s) (cycle : UInt32) : Inv d { s with cycle := cycle } :=
  ⟨⟨h.refNum, h.ready_nodup, h.ready, h.scheduled⟩, h.insnList_nodup, h.insnNum, h.active_nodup,
    h.active, h.fresh, h.preRetired, h.sublist, h.children, h.otherChildren, h.ordered⟩

section Issue

variable (S : SelectionScheduler) (bb : List SelectionInstruction)
  {d : Fin bb.length → ScheduleDAGNode bb.length} {s : Schedule bb.length}

theorem issue_insnNodes (i : ℕ) (l : ScheduleListNode bb.length) (c : Fin bb.length) :
    ((s.issue S bb i l).insnNodes c).refNum = (s.insnNodes c).refNum ∧
      ((s.issue S bb i l).insnNodes c).preRetired = (s.insnNodes c).preRetired ∧
      ((s.issue S bb i l).insnNodes c).children = (s.insnNodes c).children := by
  by_cases hc : c = l.node
  · simp [issue, hc]
  · simp [issue, hc]

theorem Inv.issue {i : ℕ} {l : ScheduleListNode bb.length} (h : Inv d s)
    (hi : s.ready[i]? = some l) : Inv d (s.issue S bb i l) := by
  obtain ⟨hlen, hget⟩ := List.getElem?_eq_some_iff.mp hi
  have hl : l ∈ s.ready := hget ▸ List.getElem_mem hlen
  obtain ⟨hnew, hz⟩ := (h.ready l.node).mp (List.mem_map_of_mem hl)
  have hfresh : (s.insnNodes l.node).preRetired = false := by
    by_contra hpre
    exact hnew (h.preRetired l.node (by simpa using hpre))
  have hnotactive : l.node ∉ s.active.map ScheduleListNode.node := by
    intro hin
    obtain ⟨l', hl', heq⟩ := List.mem_map.mp hin
    exact hnew (heq ▸ h.active l' hl')
  have hactive : (s.issue S bb i l).active.map ScheduleListNode.node =
      s.active.map ScheduleListNode.node ++ [l.node] := by simp [Schedule.issue]
  have hlist : (s.issue S bb i l).insnList = s.insnList ++ [l.node] := rfl
  have hready : (s.issue S bb i l).ready = s.ready.erase l := by
    show s.ready.eraseIdx i = _
    rw [← hget, List.Nodup.erase_getElem (.of_map _ h.ready_nodup)]
  have hnodes := issue_insnNodes (s := s) S bb i l
  -- a freshly scheduled instruction has released nothing
  have hreleased : ∀ x m, Released (s.issue S bb i l) x m ↔ Released s x m := by
    intro x m
    unfold Released
    split
    · rw [(hnodes x).2.1]
    · rw [hlist, hactive]
      by_cases hx : x = l.node
      · simp [hx, hnew]
      · simp [hx]
  have hpending : ∀ c, pending d (s.issue S bb i l) c = pending d s c := by
    intro c
    ext x
    simp only [mem_pending, hreleased]
  have hlt : s.insnList.length < bb.length := by
    have hnd : (s.insnList ++ [l.node]).Nodup :=
      h.insnList_nodup.append (by simp) (by simpa using hnew)
    exact Nat.lt_of_succ_le (by simpa using hnd.length_le_card)
  refine ⟨⟨?_, ?_, ?_, ?_⟩, ?_, ?_, ?_, ?_, ?_, ?_, ?_, ?_, ?_, ?_⟩
  · intro c
    rw [(hnodes c).1, hpending]
    exact h.refNum c
  · rw [hready]
    exact h.ready_nodup.sublist (List.erase_sublist.map _)
  · intro c
    rw [hready, mem_map_erase h.ready_nodup hl, h.ready, hlist, (hnodes c).1]
    simp only [List.mem_append, List.mem_singleton, not_or]
    tauto
  · intro c hc
    rw [(hnodes c).1]
    rw [hlist, List.mem_append, List.mem_singleton] at hc
    obtain hc | rfl := hc
    · exact h.scheduled c hc
    · exact hz
  · rw [hlist]
    exact h.insnList_nodup.append (by simp) (by simpa using hnew)
  · rw [hlist, List.length_append, List.length_singleton]
    show s.insnNum - 1 + _ = _
    have := h.insnNum
    omega
  · rw [hactive]
    exact h.active_nodup.append (by simp) (by simpa using hnotactive)
  · intro l' hl'
    rw [hlist]
    obtain hl' | hl' := List.mem_append.mp hl'
    · exact List.mem_append_left _ (h.active l' hl')
    · simp [List.mem_singleton.mp hl']
  · intro c hc hpre
    rw [(hnodes c).2.1] at hpre
    rw [hactive]
    rw [hlist] at hc
    obtain hc | hc := List.mem_append.mp hc
    · exact List.mem_append_left _ (h.fresh c hc hpre)
    · exact List.mem_append_right _ hc
  · intro c hpre
    rw [(hnodes c).2.1] at hpre
    rw [hlist]
    exact List.mem_append_left _ (h.preRetired c hpre)
  · intro c
    rw [(hnodes c).2.2]
    exact h.sublist c
  · intro c hpre
    rw [(hnodes c).2.1] at hpre
    rw [(hnodes c).2.2]
    exact h.children c hpre
  · intro l' hl'
    rw [(hnodes l'.node).2.2]
    obtain hl' | hl' := List.mem_append.mp hl'
    · exact h.otherChildren l' hl'
    · rw [List.mem_singleton.mp hl', h.children l.node hfresh]
  · intro a c hac hc
    rw [hlist] at hc ⊢
    obtain hc | hc := List.mem_append.mp hc
    · exact (h.ordered a c hac hc).append hc _
    · obtain rfl := List.mem_singleton.mp hc
      exact before_append_singleton (h.parents_scheduled hz hac) hnew

/-! ### Progress -/

/-- The cycles that active instructions still have to wait, and one for each. -/
def wait (s : Schedule bb.length) : ℕ :=
  (s.active.map fun l => ((s.insnNodes l.node).retiredCycle - s.cycle).toNat + 1).sum

/-- When nothing is ready, an instruction is active: the first one not scheduled waits for
an earlier one. -/
theorem Inv.active_ne_nil (h : Inv d s) (hd : Dag d) (hnum : s.insnNum ≠ 0)
    (hready : s.ready = []) : s.active ≠ [] := by
  obtain ⟨c, hc, hmin⟩ : ∃ c, c ∉ s.insnList ∧ ∀ a < c, a ∈ s.insnList := by
    have hne : (Finset.univ.filter fun c => c ∉ s.insnList).Nonempty := by
      by_contra hnone
      have hall : ∀ c, c ∈ s.insnList := by
        intro c
        by_contra hc
        exact hnone ⟨c, by simpa using hc⟩
      have := (List.perm_of_nodup_nodup_toFinset_eq h.insnList_nodup (List.nodup_finRange _)
        (by ext c; simp [hall c])).length_eq
      have := h.insnNum
      simp only [List.length_finRange] at *
      omega
    obtain ⟨c, hc, hmin⟩ := Finset.exists_min_image _ id hne
    refine ⟨c, by simpa using hc, fun a hac => ?_⟩
    by_contra ha
    exact not_le.mpr hac (hmin a (by simpa using ha))
  have hz : (s.insnNodes c).refNum ≠ 0 := by
    intro hz
    have := (h.ready c).mpr ⟨hc, hz⟩
    simp [hready] at this
  rw [h.refNum, Finset.card_ne_zero] at hz
  obtain ⟨a, ha⟩ := hz
  obtain ⟨l, hl, hlc, hrel⟩ := mem_pending.mp ha
  have hin : a ∈ s.insnList := hmin a (hd.lt (List.mem_map.mpr ⟨l, hl, hlc⟩))
  have hactive : a ∈ s.active.map ScheduleListNode.node := by
    unfold Released at hrel
    split at hrel
    · exact h.fresh a hin (by simpa using hrel)
    · by_contra hnot
      exact hrel ⟨hin, hnot⟩
  exact fun hnil => by simp [hnil] at hactive

theorem toNat_sub_succ {r c : UInt32} (h : ¬ r ≤ c) :
    (r - (c + 1)).toNat + 1 < (r - c).toNat + 1 := by
  have hlt := UInt32.lt_iff_toNat_lt.mp (UInt32.not_le.mp h)
  have hr := r.toNat_lt
  have hc := c.toNat_lt
  simp only [UInt32.toNat_sub, UInt32.toNat_add, UInt32.toNat_one]
  omega

theorem Inv.step (h : Inv d s) (hd : Dag d) (hnum : s.insnNum ≠ 0) :
    Inv d (s.step S bb) ∧ ((s.step S bb).insnNum < s.insnNum ∨
      (s.step S bb).insnNum = s.insnNum ∧ wait bb (s.step S bb) < wait bb s) := by
  obtain ⟨hinv, hframe, hlate⟩ := h.retire hd
  rw [Schedule.step]
  split
  · next toSchedule hget =>
    refine ⟨hinv.issue S bb hget, .inl ?_⟩
    show s.retire.insnNum - 1 < s.insnNum
    rw [hframe.insnNum]
    omega
  · next hget =>
    refine ⟨hinv.idle _, .inr ⟨hframe.insnNum, ?_⟩⟩
    have hne := hinv.active_ne_nil bb hd (hframe.insnNum ▸ hnum) (ready_eq_nil hget)
    obtain ⟨l, hl⟩ := List.exists_mem_of_ne_nil _ hne
    calc wait bb { s.retire with cycle := s.retire.cycle + 1 }
        < (s.retire.active.map fun l =>
            ((s.insnNodes l.node).retiredCycle - s.cycle).toNat + 1).sum := by
          -- every instruction that is still active has one cycle less to wait
          have hdrop : ∀ l ∈ s.retire.active,
              ((s.retire.insnNodes l.node).retiredCycle - (s.retire.cycle + 1)).toNat + 1 <
                ((s.insnNodes l.node).retiredCycle - s.cycle).toNat + 1 := by
            intro l hl
            rw [hframe.retiredCycle, hframe.cycle]
            exact toNat_sub_succ (hlate l hl)
          exact List.sum_lt_sum _ _ (fun l hl => (hdrop l hl).le) ⟨l, hl, hdrop l hl⟩
      _ ≤ wait bb s := (hframe.active.map _).sum_le_sum fun _ _ => Nat.zero_le _

/-- The loop ends, whatever the state it starts in. -/
theorem Inv.postScheduleDAG (hd : Dag d) (h : Inv d s) :
    ∃ t, Inv d t ∧ t.insnNum = 0 ∧
      ∃ k, ∀ fuel, k ≤ fuel → postScheduleDAG S bb fuel s = some t := by
  -- induction on the instructions to schedule and, between two of them, on the waiting
  induction hnum : s.insnNum using Nat.strong_induction_on generalizing s with
  | _ num ihnum =>
    induction hwait : wait bb s using Nat.strong_induction_on generalizing s with
    | _ w ihwait =>
      by_cases hz : s.insnNum = 0
      · refine ⟨s, h, hz, 1, fun fuel hfuel => ?_⟩
        obtain ⟨k, rfl⟩ := Nat.exists_eq_succ_of_ne_zero (Nat.one_le_iff_ne_zero.mp hfuel)
        rw [Backend.postScheduleDAG, if_pos hz]
      · obtain ⟨hstep, hdrop⟩ := h.step S bb hd hz
        obtain ⟨t, ht, htz, k, hk⟩ : ∃ t, Inv d t ∧ t.insnNum = 0 ∧
            ∃ k, ∀ fuel, k ≤ fuel → Backend.postScheduleDAG S bb fuel (s.step S bb) = some t := by
          obtain hlt | ⟨heq, hlt⟩ := hdrop
          · exact ihnum _ (hnum ▸ hlt) hstep rfl
          · exact ihwait _ (hwait ▸ hlt) hstep (heq.trans hnum) rfl
        refine ⟨t, ht, htz, k + 1, fun fuel hfuel => ?_⟩
        obtain ⟨fuel, rfl⟩ := Nat.exists_eq_succ_of_ne_zero (by omega : fuel ≠ 0)
        rw [Backend.postScheduleDAG, if_neg hz]
        exact hk fuel (by omega)

end Issue

end Schedule

end Backend
