/-
What the join points of `Context::buildJIPs` are for.

While a thread executes block `i`, lanes wait for later blocks.  The labels that `fwdTargets`
holds there need not be those of all these blocks: behind a backward branch the blocks that
forward branches of the loop lead to are forgotten, and only the block behind the loop is known.
But that block knows of them when the thread gets there, so a chain of such blocks leads to each
block that is waited for.

* `Pending` — such a chain;
* `Pending.advance` — a thread that moves on keeps it;
* `pending_of_forward`, `pending_of_backward` — it is there after a branch;
* **`exists_labelJIP`** — a jump to a join point skips no block that is waited for.
-/
import Beignet.Backend.Linearize

namespace Backend

namespace Linearize

variable {F : Layout}

/-! ### Labels ahead of a block -/

/-- The labels of `fwdTargets` behind the label of a block. -/
def joins (F : Layout) (i : ℕ) : Finset ℕ := atLabel F (fwdTargets F i) i

theorem label_lt_iff {i j : ℕ} : F.label i < F.label j ↔ i < j := F.label_strictMono.lt_iff_lt

theorem label_le_iff {i j : ℕ} : F.label i ≤ F.label j ↔ i ≤ j := F.label_strictMono.le_iff_le

theorem label_inj {i j : ℕ} : F.label i = F.label j ↔ i = j := F.label_strictMono.injective.eq_iff

theorem mem_joins {i x : ℕ} : x ∈ joins F i ↔
    (x ≠ F.label i ∧ x ∈ fwdTargets F i) ∨ (F.label i, x) ∈ bwdTargets F := by
  simp only [joins, atLabel, Finset.mem_union, Finset.mem_erase, List.mem_toFinset, List.mem_map,
    List.mem_filter, decide_eq_true_eq, Prod.exists]
  refine or_congr_right ?_
  constructor
  · rintro ⟨t, y, ⟨hmem, rfl⟩, rfl⟩
    exact hmem
  · intro hmem
    exact ⟨F.label i, x, ⟨hmem, rfl⟩, rfl⟩

theorem mem_bwdTargets {t x : ℕ} : (t, x) ∈ bwdTargets F ↔
    ∃ i < F.bottom, F.target i = some t ∧ t ≤ F.label i ∧ x = F.label (i + 1) := by
  simp only [bwdTargets, List.mem_filterMap, List.mem_range]
  refine exists_congr fun i => and_congr_right fun _ => ?_
  cases F.target i with
  | none => simp
  | some target =>
    simp only [Option.ite_none_right_eq_some, Option.some.injEq, Prod.mk.injEq]
    constructor
    · rintro ⟨hle, rfl, rfl⟩
      exact ⟨rfl, hle, rfl⟩
    · rintro ⟨rfl, hle, rfl⟩
      exact ⟨hle, rfl, rfl⟩

theorem mem_fwdTargets_succ {i x : ℕ} : x ∈ fwdTargets F (i + 1) ↔
    x ∈ joins F i ∨ F.target i = some x ∧ F.label i < x := by
  rw [fwdTargets]
  cases htarget : F.target i with
  | none => simp [joins]
  | some target =>
    simp only [Option.some.injEq]
    split_ifs with hle
    · constructor
      · exact .inl
      · rintro (hx | ⟨rfl, hlt⟩)
        · exact hx
        · omega
    · rw [Finset.mem_insert]
      constructor
      · rintro (rfl | hx)
        · exact .inr ⟨rfl, by omega⟩
        · exact .inl hx
      · rintro (hx | ⟨rfl, -⟩)
        · exact .inr hx
        · exact .inl rfl

theorem target_eq_some {i x : ℕ} : F.target i = some x ↔
    i < F.bottom ∧ ∃ t p, F.last i = .bra t p ∧ x = F.label t := by
  rw [Layout.target]
  split_ifs with hi
  · cases F.last i with
    | fallThrough => simp
    | bra t p => simp [hi, eq_comm]
  · simp [hi]

/-- The labels are those of blocks behind this one. -/
theorem exists_of_mem_joins {i x : ℕ} (h : x ∈ joins F i) :
    ∃ b, i < b ∧ b ≤ F.bottom ∧ x = F.label b := by
  -- before the label of the block is erased, it may also be its own
  have hfwd : ∀ i x, x ∈ fwdTargets F i → ∃ b, i ≤ b ∧ b ≤ F.bottom ∧ x = F.label b := by
    intro i
    induction i with
    | zero =>
      intro x hx
      exact absurd hx (Finset.notMem_empty x)
    | succ i ih =>
      intro x hx
      rw [mem_fwdTargets_succ] at hx
      obtain hx | ⟨htarget, hlt⟩ := hx
      · obtain ⟨hne, hx⟩ | hback := mem_joins.mp hx
        · obtain ⟨b, hb, hbot, rfl⟩ := ih x hx
          have hbne : b ≠ i := fun heq => hne (heq ▸ rfl)
          exact ⟨b, by omega, hbot, rfl⟩
        · obtain ⟨k, hk, -, hle, rfl⟩ := mem_bwdTargets.mp hback
          have hle := label_le_iff.mp hle
          exact ⟨k + 1, by omega, hk, rfl⟩
      · rw [target_eq_some] at htarget
        obtain ⟨-, t, p, hlast, rfl⟩ := htarget
        exact ⟨t, label_lt_iff.mp hlt, F.target_le hlast, rfl⟩
  obtain ⟨hne, hx⟩ | hback := mem_joins.mp h
  · obtain ⟨b, hb, hbot, rfl⟩ := hfwd i x hx
    have hbne : b ≠ i := fun heq => hne (heq ▸ rfl)
    exact ⟨b, by omega, hbot, rfl⟩
  · obtain ⟨k, hk, -, hle, rfl⟩ := mem_bwdTargets.mp hback
    have hle := label_le_iff.mp hle
    exact ⟨k + 1, by omega, hk, rfl⟩

theorem lt_of_mem_joins {i b : ℕ} (h : F.label b ∈ joins F i) : i < b := by
  obtain ⟨b', hb', -, heq⟩ := exists_of_mem_joins h
  rwa [label_inj.mp heq]

/-- A label stays until its block comes. -/
theorem mem_joins_of_le {i j b : ℕ} (h : F.label b ∈ joins F i) (hij : i ≤ j) (hjb : j < b) :
    F.label b ∈ joins F j := by
  induction j, hij using Nat.le_induction with
  | base => exact h
  | succ j hij ih =>
    have hne : F.label b ≠ F.label (j + 1) := fun heq => by
      have := label_inj.mp heq
      omega
    rw [mem_joins, mem_fwdTargets_succ]
    exact .inl ⟨hne, .inl (ih (by omega))⟩

/-! ### Waiting lanes -/

/-- At block `i` the thread knows the way to block `n`. -/
def Pending (F : Layout) : ℕ → ℕ → Prop :=
  Relation.ReflTransGen fun i b => F.label b ∈ joins F i

theorem Pending.le {i n : ℕ} (h : Pending F i n) : i ≤ n := by
  induction h with
  | refl => exact le_rfl
  | tail _ hstep ih => exact ih.trans (lt_of_mem_joins hstep).le

/-- A thread that moves on. -/
theorem Pending.advance {i j n : ℕ} (h : Pending F i n) (hij : i ≤ j) (hjn : j ≤ n) :
    Pending F j n := by
  induction h using Relation.ReflTransGen.head_induction_on with
  | refl =>
    obtain rfl : j = n := le_antisymm hjn hij
    exact .refl
  | @head i b hstep hrest ih =>
    obtain hbj | rfl | hjb := lt_trichotomy b j
    · exact ih hbj.le
    · exact hrest
    · -- the thread is not yet at the first block of the chain
      exact .head (mem_joins_of_le hstep hij hjb) hrest

theorem Pending.eq_bottom {n : ℕ} (h : Pending F F.bottom n) : n = F.bottom := by
  obtain rfl | ⟨b, hstep, -⟩ := h.cases_head
  · rfl
  · obtain ⟨c, hc, hbot, -⟩ := exists_of_mem_joins hstep
    omega

/-- The block that a forward branch leads to. -/
theorem pending_of_forward {i j t : ℕ} (htarget : F.target i = some (F.label t)) (hij : i < j)
    (hjt : j ≤ t) : Pending F j t := by
  obtain rfl | hlt := hjt.eq_or_lt
  · exact .refl
  · have hfwd : F.label t ∈ fwdTargets F (i + 1) := by
      rw [mem_fwdTargets_succ]
      exact .inr ⟨htarget, label_lt_iff.mpr (by omega)⟩
    have hne : F.label t ≠ F.label (i + 1) := fun heq => by
      have := label_inj.mp heq
      omega
    exact .single (mem_joins_of_le (mem_joins.mpr (.inl ⟨hne, hfwd⟩)) hij hlt)

/-- The block behind a backward branch. -/
theorem mem_joins_of_backward {i t : ℕ} (htarget : F.target i = some (F.label t)) (hti : t ≤ i) :
    F.label (i + 1) ∈ joins F t := by
  have hi := htarget
  rw [target_eq_some] at hi
  rw [mem_joins, mem_bwdTargets]
  exact .inr ⟨i, hi.1, htarget, label_le_iff.mpr hti, rfl⟩

/-- A thread that goes back. -/
theorem pending_of_backward {i t n : ℕ} (htarget : F.target i = some (F.label t)) (hti : t ≤ i)
    (h : Pending F (i + 1) n) : Pending F t n :=
  .head (mem_joins_of_backward htarget hti) h

/-! ### Jumps to join points -/

theorem lowest_eq_some {s : Finset ℕ} {x : ℕ} (h : lowest s = some x) :
    x ∈ s ∧ ∀ y ∈ s, x ≤ y := by
  rw [lowest] at h
  split_ifs at h with hs
  obtain rfl := Option.some.inj h
  exact ⟨s.min'_mem hs, fun y hy => s.min'_le y hy⟩

theorem lowest_eq_none {s : Finset ℕ} (h : lowest s = none) : s = ∅ := by
  rw [lowest] at h
  split_ifs at h with hs
  exact Finset.not_nonempty_iff_eq_empty.mp hs

/-- **Join points.**  The label of a block leads no further than to the first block that a lane
waits for. -/
theorem exists_labelJIP {i x : ℕ} (hjip : labelJIP F i = some x) :
    ∃ b, i < b ∧ b ≤ F.bottom ∧ x = F.label b ∧ ∀ n, i < n → Pending F i n → b ≤ n := by
  obtain ⟨hx, hmin⟩ := lowest_eq_some hjip
  obtain ⟨b, hib, hbot, rfl⟩ := exists_of_mem_joins hx
  refine ⟨b, hib, hbot, rfl, fun n hin h => ?_⟩
  obtain heq | ⟨c, hstep, hrest⟩ := h.cases_head
  · omega
  · have hbc : b ≤ c := label_le_iff.mp (hmin _ hstep)
    exact hbc.trans (Pending.le hrest)

/-- The block of a backward branch has a join point. -/
theorem labelJIP_of_backward {i t : ℕ} (htarget : F.target i = some (F.label t)) (hti : t ≤ i) :
    labelJIP F i ≠ none := by
  intro hjip
  have hmem : F.label (i + 1) ∈ joins F i :=
    mem_joins_of_le (mem_joins_of_backward htarget hti) hti (Nat.lt_succ_self i)
  rw [show joins F i = ∅ from lowest_eq_none hjip] at hmem
  exact absurd hmem (Finset.notMem_empty _)

/-- The jump behind a forward branch goes to its target or to a join point before it. -/
theorem exists_braJIP {i t : ℕ} (hit : i < t) (ht : t ≤ F.bottom) :
    ∃ b, i < b ∧ b ≤ t ∧ braJIP F i (F.label t) = F.label b ∧
      ∀ n, i < n → Pending F i n → b ≤ n := by
  have hlt : ¬ F.label t ≤ F.label i := by
    rw [label_le_iff]
    omega
  set targets := insert (F.label t) (joins F i) with htargets
  have hjip : braJIP F i (F.label t) = targets.min' (Finset.insert_nonempty ..) := if_neg hlt
  have hmem : braJIP F i (F.label t) ∈ targets := hjip ▸ targets.min'_mem _
  have hmin : ∀ y ∈ targets, braJIP F i (F.label t) ≤ y := fun y hy =>
    hjip ▸ targets.min'_le y hy
  have hblock : ∃ b, i < b ∧ b ≤ F.bottom ∧ braJIP F i (F.label t) = F.label b := by
    obtain heq | hjoin := Finset.mem_insert.mp hmem
    · exact ⟨t, hit, ht, heq⟩
    · exact exists_of_mem_joins hjoin
  obtain ⟨b, hib, -, hb⟩ := hblock
  rw [hb] at hmin
  refine ⟨b, hib, label_le_iff.mp (hmin _ (Finset.mem_insert_self ..)), hb, ?_⟩
  intro n hin hn
  obtain rfl | ⟨c, hstep, hrest⟩ := hn.cases_head
  · omega
  · exact (label_le_iff.mp (hmin _ (Finset.mem_insert_of_mem hstep))).trans (Pending.le hrest)

end Linearize

end Backend
