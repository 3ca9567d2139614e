/-
`Context::buildJIPs` (`context.cpp`) with if/else structures.

The blocks of a structure are one unit: its label is that of the entry, its branch is that of the
exit.  A first loop makes the list of the units and gives the branches inside the structures their
own targets; a second one collects the backward branches; the third one walks over the units with
the set of the labels that are outstanding.

* `mem_arrive_iff` — what is outstanding at a unit;
* **`buildJIPs_exact`** — the join points of the labels and branches of all units.
-/
import Beignet.Backend.JoinPoints

namespace Backend

namespace BuildJIPs

open Linearize (lowest)

/-! ### Blocks and units -/

structure Block where
  label : ℕ
  belongToStructure : Bool
  isStructureExit : Bool
  /-- the label of that block -/
  matchingStructureEntry : ℕ
  /-- the label that the last instruction branches to -/
  bra : Option ℕ

/-- The instructions that get a join point, by their blocks. -/
inductive Insn where
  | label (block : ℕ)
  | bra (block : ℕ)
  deriving DecidableEq

abbrev JIPs := Insn → Option ℕ

/-- `std::map::insert` keeps what is there. -/
def JIPs.insert (jips : JIPs) (insn : Insn) (label : ℕ) : JIPs :=
  if (jips insn).isSome then jips else Function.update jips insn (some label)

/-- An entry of `braTargets`; `exit` is the block with the branch. -/
structure BraTarget where
  ownLabel : ℕ
  target : Option ℕ
  exit : ℕ

/-- In a structure and not its exit. -/
def Block.isInner (bb : Block) : Bool := bb.belongToStructure && ! bb.isStructureExit

def Block.braTarget (bb : Block) : BraTarget where
  ownLabel := if bb.belongToStructure then bb.matchingStructureEntry else bb.label
  target := bb.bra
  exit := bb.label

def braTargets (blocks : List Block) : List BraTarget :=
  (blocks.filter fun bb => ! bb.isInner).map Block.braTarget

/-- The join point of a branch inside a structure. -/
def insertInner (jips : JIPs) (bb : Block) : JIPs :=
  match bb.bra with
  | some target => if bb.isInner then jips.insert (.bra bb.label) target else jips
  | none => jips

/-- The backward branches, each as its target and the label behind it. -/
def bwdTargets : List BraTarget → List (ℕ × ℕ)
  | u :: v :: rest =>
    (match u.target with
      | some target => if target ≤ u.ownLabel then [(target, v.ownLabel)] else []
      | none => []) ++ bwdTargets (v :: rest)
  | _ => []

/-! ### The last loop -/

section Loop

variable (bwd : List (ℕ × ℕ))

/-- `fwdTargets` at the label of a unit. -/
def arrive (fwdTargets : Finset ℕ) (u : BraTarget) : Finset ℕ :=
  fwdTargets.erase u.ownLabel ∪ ((bwd.filter fun b => b.1 = u.ownLabel).map Prod.snd).toFinset

/-- `fwdTargets` behind the branch of a unit. -/
def advance (fwdTargets : Finset ℕ) (u : BraTarget) : Finset ℕ :=
  match u.target with
  | some target =>
    if target ≤ u.ownLabel then arrive bwd fwdTargets u
    else insert target (arrive bwd fwdTargets u)
  | none => arrive bwd fwdTargets u

structure Loop where
  fwdTargets : Finset ℕ
  jips : JIPs

/-- The join point of the label, if there is one. -/
def insertLabel (st : Loop) (u : BraTarget) : JIPs :=
  match lowest (arrive bwd st.fwdTargets u) with
  | some label => st.jips.insert (.label u.ownLabel) label
  | none => st.jips

def visit (st : Loop) (u : BraTarget) : Loop where
  fwdTargets := advance bwd st.fwdTargets u
  jips :=
    match u.target with
    | none => insertLabel bwd st u
    | some target =>
      if target ≤ u.ownLabel then (insertLabel bwd st u).insert (.bra u.exit) target
      else
        match lowest (insert target (arrive bwd st.fwdTargets u)) with
        | some label => (insertLabel bwd st u).insert (.bra u.exit) label
        | none => insertLabel bwd st u

end Loop

def buildJIPs (blocks : List Block) : JIPs :=
  let units := braTargets blocks
  (units.foldl (visit (bwdTargets units))
    ⟨∅, blocks.foldl insertInner fun _ => none⟩).jips

/-! ### What is outstanding -/

/-- The labels that lanes may wait for at the unit `u` in the place `b`. -/
def Outstanding (units : List BraTarget) (b : ℕ) (u : BraTarget) : Set ℕ :=
  {x | ∃ s v, s < b ∧ units[s]? = some v ∧ v.target = some x ∧ v.ownLabel < x ∧ u.ownLabel < x} ∪
    {x | ∃ i v w target, b ≤ i ∧ units[i]? = some v ∧ units[i + 1]? = some w ∧
      v.target = some target ∧ target ≤ v.ownLabel ∧ target ≤ u.ownLabel ∧ x = w.ownLabel}

/-- Branches go to labels of units, and the last unit returns. -/
structure Placed (units : List BraTarget) : Prop where
  sorted : units.Pairwise fun u v => u.ownLabel < v.ownLabel
  target : ∀ u ∈ units, ∀ target ∈ u.target, ∃ v ∈ units, v.ownLabel = target
  ret : ∀ u ∈ units.getLast?, u.target = none

section Units

variable {units : List BraTarget}

theorem mem_bwdTargets {t x : ℕ} : (t, x) ∈ bwdTargets units ↔
    ∃ i v w, units[i]? = some v ∧ units[i + 1]? = some w ∧ v.target = some t ∧ t ≤ v.ownLabel ∧
      x = w.ownLabel := by
  induction units with
  | nil => simp [bwdTargets]
  | cons u rest ih =>
    cases rest with
    | nil => simp [bwdTargets]
    | cons v rest =>
      rw [bwdTargets, List.mem_append, ih]
      constructor
      · rintro (hfirst | ⟨i, hrest⟩)
        · cases htarget : u.target with
          | none =>
            rw [htarget] at hfirst
            exact absurd hfirst List.not_mem_nil
          | some target =>
            simp only [htarget] at hfirst
            split_ifs at hfirst with hle
            · obtain ⟨rfl, rfl⟩ := Prod.mk.inj (List.mem_singleton.mp hfirst)
              exact ⟨0, u, v, rfl, rfl, htarget, hle, rfl⟩
            · exact absurd hfirst List.not_mem_nil
        · exact ⟨i + 1, hrest⟩
      · rintro ⟨i, a, w, ha, hw, htarget, hle, rfl⟩
        cases i with
        | zero =>
          obtain rfl := Option.some.inj ha
          obtain rfl := Option.some.inj hw
          left
          simp only [htarget, if_pos hle]
          exact List.mem_singleton_self _
        | succ i => exact .inr ⟨i, a, w, ha, hw, htarget, hle, rfl⟩

theorem mem_arrive {bwd : List (ℕ × ℕ)} {fwd : Finset ℕ} {u : BraTarget} {x : ℕ} :
    x ∈ arrive bwd fwd u ↔ (x ≠ u.ownLabel ∧ x ∈ fwd) ∨ (u.ownLabel, x) ∈ bwd := by
  simp only [arrive, Finset.mem_union, Finset.mem_erase, List.mem_toFinset, List.mem_map,
    List.mem_filter, decide_eq_true_eq, Prod.exists]
  refine or_congr_right ⟨?_, fun h => ⟨u.ownLabel, x, ⟨h, rfl⟩, rfl⟩⟩
  rintro ⟨t, y, ⟨hmem, rfl⟩, rfl⟩
  exact hmem

theorem mem_advance {bwd : List (ℕ × ℕ)} {fwd : Finset ℕ} {u : BraTarget} {x : ℕ} :
    x ∈ advance bwd fwd u ↔
      x ∈ arrive bwd fwd u ∨ (u.target = some x ∧ u.ownLabel < x) := by
  rw [advance]
  cases htarget : u.target with
  | none => simp
  | some target =>
    simp only [Option.some.injEq]
    split_ifs with hle
    · refine ⟨.inl, fun h => h.resolve_right ?_⟩
      rintro ⟨rfl, hlt⟩
      omega
    · rw [Finset.mem_insert, or_comm]
      refine or_congr_right ⟨fun h => ⟨h.symm, by omega⟩, fun h => h.1.symm⟩

/-- `fwdTargets` when the loop comes to a place. -/
def fwdTargets (units : List BraTarget) (b : ℕ) : Finset ℕ :=
  (units.take b).foldl (advance (bwdTargets units)) ∅

theorem fwdTargets_succ {b : ℕ} {u : BraTarget} (h : units[b]? = some u) :
    fwdTargets units (b + 1) = advance (bwdTargets units) (fwdTargets units b) u := by
  obtain ⟨hb, rfl⟩ := List.getElem?_eq_some_iff.mp h
  rw [fwdTargets, fwdTargets, List.take_succ_eq_append_getElem hb, List.foldl_append]
  rfl

namespace Placed

variable (hp : Placed units)

include hp

theorem lt_iff {i j : ℕ} {u v : BraTarget} (hu : units[i]? = some u) (hv : units[j]? = some v) :
    u.ownLabel < v.ownLabel ↔ i < j := by
  obtain ⟨hi, rfl⟩ := List.getElem?_eq_some_iff.mp hu
  obtain ⟨hj, rfl⟩ := List.getElem?_eq_some_iff.mp hv
  have hlt := List.pairwise_iff_getElem.mp hp.sorted
  constructor
  · intro h
    by_contra hle
    rcases Nat.lt_or_ge j i with hji | hij
    · exact absurd (hlt j i hj hi hji) (by omega)
    · obtain rfl : i = j := by omega
      exact absurd h (Nat.lt_irrefl _)
  · exact hlt i j hi hj

theorem exists_target {i x : ℕ} {u : BraTarget} (hu : units[i]? = some u)
    (hx : u.target = some x) : ∃ (j : ℕ) (v : BraTarget), units[j]? = some v ∧ v.ownLabel = x := by
  obtain ⟨v, hv, heq⟩ := hp.target u (List.mem_of_getElem? hu) x hx
  obtain ⟨j, hj⟩ := List.mem_iff_getElem?.mp hv
  exact ⟨j, v, hj, heq⟩

end Placed

/-- A branch target that is not past a unit is its label or not past the one before. -/
theorem Placed.le_of_lt (hp : Placed units) {i b target : ℕ} {u v w : BraTarget}
    (hw : units[b]? = some w) (hu : units[b + 1]? = some u) (hv : units[i]? = some v)
    (htarget : v.target = some target) (hlt : target < u.ownLabel) : target ≤ w.ownLabel := by
  obtain ⟨j, t, ht, rfl⟩ := hp.exists_target hv htarget
  have hj := (hp.lt_iff ht hu).mp hlt
  have hle : ¬ b < j := by omega
  exact Nat.not_lt.mp fun h => hle ((hp.lt_iff hw ht).mp h)

/-- A branch target past a unit is the label of the next one or past that. -/
theorem Placed.lt_of_ne (hp : Placed units) {s b x : ℕ} {u v w : BraTarget}
    (hw : units[b]? = some w) (hu : units[b + 1]? = some u) (hv : units[s]? = some v)
    (htarget : v.target = some x) (hlt : w.ownLabel < x) (hne : x ≠ u.ownLabel) :
    u.ownLabel < x := by
  obtain ⟨j, t, ht, rfl⟩ := hp.exists_target hv htarget
  have hj := (hp.lt_iff hw ht).mp hlt
  refine (hp.lt_iff hu ht).mpr (Nat.lt_of_le_of_ne hj ?_)
  rintro rfl
  rw [hu] at ht
  exact hne (congrArg BraTarget.ownLabel (Option.some.inj ht).symm)

/-- The set of the loop at the label of a unit. -/
theorem mem_arrive_iff (hp : Placed units) {b x : ℕ} {u : BraTarget} (hu : units[b]? = some u) :
    x ∈ arrive (bwdTargets units) (fwdTargets units b) u ↔ x ∈ Outstanding units b u := by
  induction b generalizing u x with
  | zero =>
    rw [mem_arrive, mem_bwdTargets]
    constructor
    · rintro (⟨-, hmem⟩ | ⟨i, v, w, hv, hw, htarget, hle, rfl⟩)
      · exact absurd hmem (Finset.notMem_empty x)
      · exact .inr ⟨i, v, w, u.ownLabel, i.zero_le, hv, hw, htarget, hle, le_rfl, rfl⟩
    · rintro (⟨s, v, hs, -⟩ | ⟨i, v, w, target, -, hv, hw, htarget, hle, hleu, rfl⟩)
      · exact absurd hs s.not_lt_zero
      · -- no unit is before the first one
        obtain ⟨j, t, ht, rfl⟩ := hp.exists_target hv htarget
        have hnot : ¬ t.ownLabel < u.ownLabel := fun h => by
          have := (hp.lt_iff ht hu).mp h
          omega
        obtain heq : t.ownLabel = u.ownLabel := by omega
        exact .inr ⟨i, v, w, hv, hw, heq ▸ htarget, heq ▸ hle, rfl⟩
  | succ b ih =>
    obtain ⟨w, hw⟩ : ∃ w, units[b]? = some w := by
      obtain ⟨hb, -⟩ := List.getElem?_eq_some_iff.mp hu
      exact ⟨units[b], List.getElem?_eq_getElem (by omega)⟩
    have hwu : w.ownLabel < u.ownLabel := (hp.lt_iff hw hu).mpr (Nat.lt_succ_self b)
    rw [mem_arrive, fwdTargets_succ hw, mem_advance, ih hw, mem_bwdTargets]
    constructor
    · rintro (⟨hne, (⟨s, v, hs, hv, htarget, hlt, hwx⟩ |
        ⟨i, v, v', target, hi, hv, hv', htarget, hle, hlew, rfl⟩) | ⟨htarget, hlt⟩⟩ |
        ⟨i, v, v', hv, hv', htarget, hle, rfl⟩)
      · exact .inl ⟨s, v, by omega, hv, htarget, hlt, hp.lt_of_ne hw hu hv htarget hwx hne⟩
      · -- the unit behind the branch of `b` is this one
        have hib : i ≠ b := by
          rintro rfl
          rw [hu] at hv'
          exact hne (congrArg BraTarget.ownLabel (Option.some.inj hv').symm)
        exact .inr ⟨i, v, v', target, by omega, hv, hv', htarget, hle, by omega, rfl⟩
      · exact .inl ⟨b, w, Nat.lt_succ_self b, hw, htarget, hlt,
          hp.lt_of_ne hw hu hw htarget hlt hne⟩
      · have hnot : ¬ i < b + 1 := fun h => by
          have := (hp.lt_iff hv hu).mpr h
          omega
        exact .inr ⟨i, v, v', u.ownLabel, by omega, hv, hv', htarget, hle, le_rfl, rfl⟩
    · rintro (⟨s, v, hs, hv, htarget, hlt, hux⟩ |
        ⟨i, v, v', target, hi, hv, hv', htarget, hle, hleu, rfl⟩)
      · refine .inl ⟨by omega, ?_⟩
        rcases Nat.lt_or_ge s b with hsb | hbs
        · exact .inl (.inl ⟨s, v, hsb, hv, htarget, hlt, by omega⟩)
        · obtain rfl : s = b := by omega
          rw [hw] at hv
          obtain rfl := Option.some.inj hv
          exact .inr ⟨htarget, hlt⟩
      · rcases Nat.lt_or_ge target u.ownLabel with hltu | hge
        · have hux : u.ownLabel < v'.ownLabel := (hp.lt_iff hu hv').mpr (by omega)
          exact .inl ⟨by omega, .inl (.inr ⟨i, v, v', target, by omega, hv, hv', htarget, hle,
            hp.le_of_lt hw hu hv htarget hltu, rfl⟩)⟩
        · obtain rfl : target = u.ownLabel := by omega
          exact .inr ⟨i, v, v', hv, hv', htarget, hle, rfl⟩

end Units

/-! ### The join points -/

section Jips

variable {jips : JIPs} {insn key : Insn} {x y : ℕ}

theorem insert_of_ne (h : key ≠ insn) : jips.insert insn x key = jips key := by
  rw [JIPs.insert]
  split_ifs
  · rfl
  · exact Function.update_of_ne h _ _

theorem insert_self (h : jips insn = none) : jips.insert insn x insn = some x := by
  rw [JIPs.insert, h]
  exact Function.update_self _ _ _

variable {bwd : List (ℕ × ℕ)} {st : Loop} {u : BraTarget} {units : List BraTarget}

theorem insertLabel_of_ne (h : key ≠ .label u.ownLabel) :
    insertLabel bwd st u key = st.jips key := by
  rw [insertLabel]
  cases lowest (arrive bwd st.fwdTargets u) with
  | none => rfl
  | some label => exact insert_of_ne h

theorem insertLabel_self (h : st.jips (.label u.ownLabel) = none) :
    insertLabel bwd st u (.label u.ownLabel) = lowest (arrive bwd st.fwdTargets u) := by
  rw [insertLabel]
  cases lowest (arrive bwd st.fwdTargets u) with
  | none => exact h
  | some label => exact insert_self h

/-- Apart from the branch, a unit changes what its label changes. -/
theorem jips_visit (h : key ≠ .bra u.exit) :
    (visit bwd st u).jips key = insertLabel bwd st u key := by
  rw [visit]
  cases u.target with
  | none => rfl
  | some target =>
    simp only
    split_ifs
    · exact insert_of_ne h
    · cases lowest (insert target (arrive bwd st.fwdTargets u)) with
      | none => rfl
      | some label => exact insert_of_ne h

theorem jips_visit_bra {target : ℕ} (htarget : u.target = some target)
    (h : st.jips (.bra u.exit) = none) :
    (visit bwd st u).jips (.bra u.exit) =
      if target ≤ u.ownLabel then some target
      else lowest (insert target (arrive bwd st.fwdTargets u)) := by
  have hnone : insertLabel bwd st u (.bra u.exit) = none := by
    rw [insertLabel_of_ne (by simp), h]
  rw [visit, htarget]
  simp only
  split_ifs
  · exact insert_self hnone
  · cases lowest (insert target (arrive bwd st.fwdTargets u)) with
    | none => exact hnone
    | some label => exact insert_self hnone

/-- The units that a join point does not belong to leave it alone. -/
theorem jips_foldl (h : ∀ u ∈ units, key ≠ .label u.ownLabel ∧ key ≠ .bra u.exit) :
    (units.foldl (visit bwd) st).jips key = st.jips key := by
  induction units generalizing st with
  | nil => rfl
  | cons u rest ih =>
    obtain ⟨hlabel, hbra⟩ := h u List.mem_cons_self
    rw [List.foldl_cons, ih fun v hv => h v (List.mem_cons_of_mem u hv), jips_visit hbra,
      insertLabel_of_ne hlabel]

theorem fwdTargets_foldl :
    (units.foldl (visit bwd) st).fwdTargets = units.foldl (advance bwd) st.fwdTargets := by
  induction units generalizing st with
  | nil => rfl
  | cons u rest ih => exact ih

/-- The first loop is about branches inside structures. -/
theorem foldl_insertInner {blocks : List Block}
    (h : ∀ bb ∈ blocks, key = .bra bb.label → bb.isInner = false) :
    blocks.foldl insertInner jips key = jips key := by
  induction blocks generalizing jips with
  | nil => rfl
  | cons bb rest ih =>
    rw [List.foldl_cons, ih fun b hb => h b (List.mem_cons_of_mem bb hb), insertInner]
    cases bb.bra with
    | none => rfl
    | some target =>
      simp only
      split_ifs with hinner
      · refine insert_of_ne fun heq => ?_
        rw [h bb List.mem_cons_self heq] at hinner
        cases hinner
      · rfl

end Jips

/-! ### The result -/

section Result

variable {blocks : List Block}

/-- The first loop leaves the units alone. -/
theorem insertInner_exit (hlabels : (blocks.map Block.label).Nodup) {u : BraTarget}
    (hu : u ∈ braTargets blocks) :
    blocks.foldl insertInner (fun _ => none) (.bra u.exit) = none := by
  obtain ⟨bb, hbb, rfl⟩ := List.mem_map.mp hu
  obtain ⟨hbb, hinner⟩ := List.mem_filter.mp hbb
  refine foldl_insertInner fun b hb heq => ?_
  obtain rfl : bb = b := List.inj_on_of_nodup_map hlabels hbb hb (Insn.bra.inj heq)
  simpa using hinner

theorem exits_nodup (hlabels : (blocks.map Block.label).Nodup) :
    ((braTargets blocks).map BraTarget.exit).Nodup := by
  rw [braTargets, List.map_map]
  exact hlabels.sublist (List.filter_sublist.map _)

theorem isLeast_of_lowest {s : Finset ℕ} {S : Set ℕ} (hs : ∀ x, x ∈ s ↔ x ∈ S) {x : ℕ} :
    lowest s = some x ↔ IsLeast S x := by
  constructor
  · intro h
    obtain ⟨hmem, hmin⟩ := Linearize.lowest_eq_some h
    exact ⟨(hs x).mp hmem, fun y hy => hmin y ((hs y).mpr hy)⟩
  · rintro ⟨hmem, hmin⟩
    cases h : lowest s with
    | none =>
      rw [Linearize.lowest_eq_none h] at hs
      exact absurd ((hs x).mpr hmem) (Finset.notMem_empty x)
    | some y =>
      obtain ⟨hy, hymin⟩ := Linearize.lowest_eq_some h
      exact congrArg some (le_antisymm (hymin x ((hs x).mpr hmem)) (hmin ((hs y).mp hy)))

/-- **Join points.**  A label gets the least label that is outstanding, if there is one; a forward
branch gets the least of these and its target, a backward branch its target. -/
theorem buildJIPs_exact (hlabels : blocks.Pairwise fun b c => b.label < c.label)
    (hp : Placed (braTargets blocks)) {b : ℕ} {u : BraTarget}
    (hu : (braTargets blocks)[b]? = some u) :
    ((∃ x, buildJIPs blocks (.label u.ownLabel) = some x) ↔
        (Outstanding (braTargets blocks) b u).Nonempty) ∧
      (∀ x, buildJIPs blocks (.label u.ownLabel) = some x ↔
        IsLeast (Outstanding (braTargets blocks) b u) x) ∧
      ∀ target, u.target = some target →
        (u.ownLabel < target → ∃ x, buildJIPs blocks (.bra u.exit) = some x ∧
          IsLeast (insert target (Outstanding (braTargets blocks) b u)) x) ∧
        (target ≤ u.ownLabel → buildJIPs blocks (.bra u.exit) = some target) := by
  have hnodup : (blocks.map Block.label).Nodup := by
    refine List.Pairwise.map _ (fun b c hlt => Nat.ne_of_lt hlt) hlabels
  have hinner := insertInner_exit hnodup (List.mem_of_getElem? hu)
  have hexits := exits_nodup hnodup
  rw [buildJIPs]
  set units := braTargets blocks with hunits
  set bwd := bwdTargets units
  -- the units before and behind
  obtain ⟨hb, hget⟩ := List.getElem?_eq_some_iff.mp hu
  have hsplit : units = units.take b ++ u :: units.drop (b + 1) := by
    rw [← hget, List.getElem_cons_drop, List.take_append_drop]
  set st := (units.take b).foldl (visit bwd) ⟨∅, blocks.foldl insertInner fun _ => none⟩ with hst
  have hfwd : st.fwdTargets = fwdTargets units b := fwdTargets_foldl
  have hmem : ∀ x, x ∈ arrive bwd st.fwdTargets u ↔ x ∈ Outstanding units b u := fun x => by
    rw [hfwd]
    exact mem_arrive_iff hp hu
  have hrun : units.foldl (visit bwd) ⟨∅, blocks.foldl insertInner fun _ => none⟩ =
      (units.drop (b + 1)).foldl (visit bwd) (visit bwd st u) := by
    conv_lhs => rw [hsplit]
    rw [List.foldl_append, List.foldl_cons]
  -- no other unit has this label or this branch
  have hothers : ∀ v ∈ units.take b ++ units.drop (b + 1),
      v.ownLabel ≠ u.ownLabel ∧ v.exit ≠ u.exit := by
    have hsorted := hp.sorted
    rw [hsplit, List.pairwise_append, List.pairwise_cons] at hsorted
    rw [hsplit, List.map_append, List.map_cons, List.nodup_middle,
      ← List.map_append, List.nodup_cons] at hexits
    intro v hv
    refine ⟨?_, fun heq => hexits.1 (List.mem_map.mpr ⟨v, hv, heq⟩)⟩
    rcases List.mem_append.mp hv with hv | hv
    · exact (hsorted.2.2 v hv u List.mem_cons_self).ne
    · exact (hsorted.2.1.1 v hv).ne'
  have hlabel : ∀ v ∈ units.take b ++ units.drop (b + 1),
      Insn.label u.ownLabel ≠ .label v.ownLabel ∧ Insn.label u.ownLabel ≠ .bra v.exit :=
    fun v hv => ⟨fun h => (hothers v hv).1 (Insn.label.inj h).symm, by simp⟩
  have hbra : ∀ v ∈ units.take b ++ units.drop (b + 1),
      Insn.bra u.exit ≠ .label v.ownLabel ∧ Insn.bra u.exit ≠ .bra v.exit :=
    fun v hv => ⟨by simp, fun h => (hothers v hv).2 (Insn.bra.inj h).symm⟩
  have hlabelJIP : ∀ x, (units.foldl (visit bwd)
      ⟨∅, blocks.foldl insertInner fun _ => none⟩).jips (.label u.ownLabel) = some x ↔
        IsLeast (Outstanding units b u) x := by
    have hnone : st.jips (.label u.ownLabel) = none := by
      rw [hst, jips_foldl fun v hv => hlabel v (List.mem_append_left _ hv)]
      exact foldl_insertInner fun bb _ h => by cases h
    rw [hrun, jips_foldl fun v hv => hlabel v (List.mem_append_right _ hv), jips_visit (by simp),
      insertLabel_self hnone]
    exact fun x => isLeast_of_lowest hmem
  refine ⟨⟨?_, ?_⟩, hlabelJIP, fun target htarget => ?_⟩
  · rintro ⟨x, hx⟩
    exact ⟨x, ((hlabelJIP x).mp hx).1⟩
  · intro hne
    classical
    have hleast : IsLeast (Outstanding units b u) (Nat.find hne) :=
      ⟨Nat.find_spec hne, fun y hy => Nat.find_min' hne hy⟩
    exact ⟨_, (hlabelJIP _).mpr hleast⟩
  · have hnone : st.jips (.bra u.exit) = none := by
      rw [hst, jips_foldl fun v hv => hbra v (List.mem_append_left _ hv)]
      exact hinner
    rw [hrun, jips_foldl fun v hv => hbra v (List.mem_append_right _ hv),
      jips_visit_bra htarget hnone]
    refine ⟨fun hlt => ?_, fun hle => if_pos hle⟩
    rw [if_neg (by omega)]
    have hins : ∀ x, x ∈ insert target (arrive bwd st.fwdTargets u) ↔
        x ∈ insert target (Outstanding units b u) := fun x => by
      rw [Finset.mem_insert, Set.mem_insert_iff, hmem]
    cases hlow : lowest (insert target (arrive bwd st.fwdTargets u)) with
    | none =>
      have hempty := Linearize.lowest_eq_none hlow
      exact absurd hempty (Finset.insert_ne_empty _ _)
    | some x => exact ⟨x, rfl, (isLeast_of_lowest hins).mp hlow⟩

/-- A loop behind a structure: the branch at its end leads back into it. -/
def sampleBlocks : List Block :=
  [⟨0, false, false, 0, some 4⟩, ⟨1, true, false, 1, some 3⟩, ⟨2, true, false, 1, none⟩,
    ⟨3, true, true, 1, none⟩, ⟨4, false, false, 0, some 1⟩, ⟨5, false, false, 0, none⟩]

theorem buildJIPs_sample :
    (∃ x, buildJIPs sampleBlocks (.label 1) = some x) ↔
      (Outstanding (braTargets sampleBlocks) 1 ⟨1, none, 3⟩).Nonempty := by
  have hp : Placed (braTargets sampleBlocks) := by
    refine ⟨by decide, ?_, by decide⟩
    have hall : (braTargets sampleBlocks).all fun u => u.target.all fun target =>
        (braTargets sampleBlocks).any fun v => v.ownLabel == target := by decide
    intro u hu target htarget
    have hu := List.all_eq_true.mp hall u hu
    rw [Option.mem_def.mp htarget] at hu
    obtain ⟨v, hv, heq⟩ := List.any_eq_true.mp hu
    exact ⟨v, hv, eq_of_beq heq⟩
  exact (buildJIPs_exact (by decide) hp (b := 1) (u := ⟨1, none, 3⟩) rfl).1

end Result

end BuildJIPs

end Backend
