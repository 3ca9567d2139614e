/-
The chains that `FunctionDAG` builds.

* `initializeInstructionDef_spec` — the backward scan finds the last definition;
* `build_spec` — the iteration ends, and its sets are the transfers `Flows`;
* `walkBlock_spec` — the walk over a block gives each use its `Chain`, and the
  assertions of the source hold;
* `functionDAG_chains` — the UD chains are the reaching definitions exactly when
  no definition leaks over an edge whose source declares the register undefined,
  and the DU chains are their inverse.
-/
import Beignet.Ir.Reaching

namespace Ir

open Liveness (BlockInfo LiveSets IsSolution IsLiveness)

variable {fn : Function} {info : fn.Block → BlockInfo}

namespace LiveOutSet

/-! ### The backward scan -/

/-- The destinations of one instruction: a live register that has no definition yet
gets its first occurrence. -/
theorem scanDst_foldl (liveOut : Finset Register) (b : fn.Block) (i : ℕ)
    (dsts : List (Register × ℕ)) (hnd : (dsts.map Prod.fst).Nodup)
    (acc : Finset Register × (Register → DefSet fn)) :
    (∀ r, r ∈ (dsts.foldl (scanDst liveOut b i) acc).1 ↔
      r ∈ acc.1 ∨ r ∈ liveOut ∧ ∃ k, (r, k) ∈ dsts) ∧
    ∀ r d, d ∈ (dsts.foldl (scanDst liveOut b i) acc).2 r ↔
      d ∈ acc.2 r ∨ r ∉ acc.1 ∧ r ∈ liveOut ∧ ∃ k, (r, k) ∈ dsts ∧ d = .insnDst b i k := by
  induction dsts generalizing acc with
  | nil => simp
  | cons x dsts ih =>
    obtain ⟨x, k⟩ := x
    simp only [List.map_cons, List.nodup_cons] at hnd
    have hx : ∀ k', (x, k') ∉ dsts := fun k' hk => hnd.1 (List.mem_map_of_mem hk)
    obtain ⟨ih1, ih2⟩ := ih hnd.2 (scanDst liveOut b i acc (x, k))
    rw [List.foldl_cons]
    by_cases hdef : x ∈ acc.1
    · have hacc : scanDst liveOut b i acc (x, k) = acc := if_pos hdef
      rw [hacc] at ih1 ih2 ⊢
      refine ⟨fun r => ?_, fun r d => ?_⟩
      · rw [ih1]
        grind
      · rw [ih2]
        grind
    · by_cases hlive : x ∈ liveOut
      · have hacc : scanDst liveOut b i acc (x, k) = (insert x acc.1,
            Function.update acc.2 x (insert (.insnDst b i k) (acc.2 x))) := by
          simp [scanDst, hdef, hlive]
        rw [hacc] at ih1 ih2 ⊢
        refine ⟨fun r => ?_, fun r d => ?_⟩
        · rw [ih1]
          grind
        · rw [ih2]
          by_cases hr : r = x
          · subst hr
            simp only [Function.update_self, Finset.mem_insert]
            grind
          · simp only [Function.update_of_ne hr]
            grind
      · have hacc : scanDst liveOut b i acc (x, k) = acc := by simp [scanDst, hlive]
        rw [hacc] at ih1 ih2 ⊢
        refine ⟨fun r => ?_, fun r d => ?_⟩
        · rw [ih1]
          grind
        · rw [ih2]
          grind

theorem scanInsn_foldl {liveOut : Finset Register} {b : fn.Block} {insns : List Instruction}
    (hnd : ∀ i ∈ insns, i.dst.Nodup) (n : ℕ) :
    (∀ r, r ∈ ((insns.zipIdx n).reverse.foldl (scanInsn liveOut b) (∅, fun _ => ∅)).1 ↔
      r ∈ liveOut ∧ ∃ i ∈ insns, r ∈ i.dst) ∧
    ∀ r d, d ∈ ((insns.zipIdx n).reverse.foldl (scanInsn liveOut b) (∅, fun _ => ∅)).2 r ↔
      r ∈ liveOut ∧ ∃ j insn k, insns[j]? = some insn ∧ insn.dst[k]? = some r ∧
        d = .insnDst b (n + j) k ∧ ∀ i ∈ insns.drop (j + 1), r ∉ i.dst := by
  induction insns generalizing n with
  | nil => simp
  | cons a insns ih =>
    obtain ⟨ih1, ih2⟩ := ih (fun i hi => hnd i (List.mem_cons_of_mem _ hi)) (n + 1)
    rw [List.zipIdx_cons, List.reverse_cons, List.foldl_append, List.foldl_cons, List.foldl_nil]
    have ha : (a.dst.zipIdx.map Prod.fst).Nodup := by
      rw [List.zipIdx_map_fst]
      exact hnd a (by simp)
    obtain ⟨h1, h2⟩ := scanDst_foldl liveOut b n a.dst.zipIdx ha
      ((insns.zipIdx (n + 1)).reverse.foldl (scanInsn liveOut b) (∅, fun _ => ∅))
    refine ⟨fun r => ?_, fun r d => ?_⟩
    · show r ∈ (a.dst.zipIdx.foldl (scanDst liveOut b n) _).1 ↔ _
      rw [h1, ih1]
      simp only [List.mk_mem_zipIdx_iff_getElem?, List.mem_cons, exists_eq_or_imp,
        ← List.mem_iff_getElem?]
      rw [← and_or_left, or_comm]
    · show d ∈ (a.dst.zipIdx.foldl (scanDst liveOut b n) _).2 r ↔ _
      rw [h2, ih1, ih2]
      simp only [List.mk_mem_zipIdx_iff_getElem?]
      constructor
      · rintro (⟨hl, j, insn, k, hj, hk, rfl, hlater⟩ | ⟨hnone, hl, k, hk, rfl⟩)
        · exact ⟨hl, j + 1, insn, k, by simpa using hj, hk, by congr 1; omega,
            by simpa using hlater⟩
        · refine ⟨hl, 0, a, k, rfl, hk, by simp, fun i hi hr => ?_⟩
          exact hnone ⟨hl, i, by simpa using hi, hr⟩
      · rintro ⟨hl, j, insn, k, hj, hk, rfl, hlater⟩
        rcases j with _ | j
        · simp only [List.getElem?_cons_zero, Option.some_inj] at hj
          subst hj
          refine .inr ⟨?_, hl, k, hk, by simp⟩
          rintro ⟨-, i, hi, hr⟩
          exact hlater i (by simpa using hi) hr
        · exact .inl ⟨hl, j, insn, k, by simpa using hj, hk, by congr 1; omega,
            by simpa using hlater⟩

theorem initializeInstructionDef_spec (hwf : fn.WellFormed) {b : fn.Block} {r : Register}
    {d : ValueDef fn} :
    d ∈ initializeInstructionDef info b r ↔
      r ∈ (info b).liveOut ∧ LastDef r d b (fn.block b).insns.length := by
  rw [initializeInstructionDef, (scanInsn_foldl (hwf.dst_nodup b) 0).2 r d]
  refine and_congr_right fun _ => ?_
  constructor
  · rintro ⟨j, insn, k, hj, hk, rfl, hlater⟩
    refine ⟨j, (List.getElem?_eq_some_iff.mp hj).1, ⟨insn, k, hj, hk, by rw [zero_add]⟩, ?_⟩
    intro l hjl _ insn' hl
    refine hlater insn' (List.mem_iff_getElem?.mpr ⟨l - (j + 1), ?_⟩)
    rw [List.getElem?_drop, show j + 1 + (l - (j + 1)) = l by omega]
    exact hl
  · rintro ⟨j, -, ⟨insn, k, hj, hk, rfl⟩, hlater⟩
    refine ⟨j, insn, k, hj, hk, by rw [zero_add], fun i hi => ?_⟩
    obtain ⟨l, hl⟩ := List.mem_iff_getElem?.mp hi
    rw [List.getElem?_drop] at hl
    exact hlater _ (by omega) (List.getElem?_eq_some_iff.mp hl).1 i hl

/-! ### Definitions made by the caller -/

theorem mem_otherDef {r : Register} {d : ValueDef fn} : d ∈ otherDef fn r ↔ EntryDef r d := by
  have harg : (∃ argID, argID < fn.args.length ∧ fn.args[argID]? = some r ∧ .fnArg argID = d) ↔
      ∃ argID, fn.args[argID]? = some r ∧ d = .fnArg argID := by
    constructor
    · rintro ⟨argID, -, h, rfl⟩
      exact ⟨argID, h, rfl⟩
    · rintro ⟨argID, h, rfl⟩
      exact ⟨argID, (List.getElem?_eq_some_iff.mp h).1, h, rfl⟩
  simp only [otherDef, EntryDef, Finset.mem_union, Finset.mem_image, Finset.mem_filter,
    Finset.mem_range, and_assoc, harg, or_assoc]
  refine or_congr_right (or_congr ?_ ?_)
  · split <;> simp_all
  · split <;> simp_all

/-- The three kinds of caller definitions exclude each other, so the one that
`makeDefSet` picks is the only one. -/
theorem mem_entryDef (hwf : fn.WellFormed) {r : Register} {d : ValueDef fn} :
    d ∈ entryDef fn r ↔ EntryDef r d := by
  unfold entryDef EntryDef
  by_cases hp : r ∈ fn.pushMap
  · have harg : ∀ argID, fn.args[argID]? ≠ some r := fun argID h =>
      hwf.args_notPushed r (List.mem_of_getElem? h) hp
    simp [hp, harg, hwf.pushMap_notSpecial r hp]
  · rw [if_neg hp]
    rcases h : fn.args.idxOf? r with _ | argID
    · have harg : ∀ argID, fn.args[argID]? ≠ some r := fun argID h' =>
        absurd (List.mem_of_getElem? h') (List.idxOf?_eq_none_iff.mp h)
      by_cases hs : fn.isSpecialReg r
      · simp [hp, harg, hs]
      · simp [hp, harg, hs]
    · obtain ⟨hlt, hget, -⟩ := List.idxOf?_eq_some_iff.mp h
      have hmem : fn.args[argID]? = some r := List.getElem?_eq_some_iff.mpr ⟨hlt, hget⟩
      have huniq : ∀ k, fn.args[k]? = some r ↔ k = argID := by
        intro k
        refine ⟨fun hk => ?_, fun hk => hk ▸ hmem⟩
        exact (List.getElem?_inj (List.getElem?_eq_some_iff.mp hk).1 hwf.args_nodup).mp
          (hk.trans hmem.symm)
      simp [hp, huniq, hwf.args_notSpecial r (List.mem_of_getElem? hmem)]

/-! ### The iteration -/

variable {m : FunctionDefMap fn}

theorem mem_transfer {f : Bool} {e : fn.Block × fn.Block} {b : fn.Block} {r : Register}
    {d : ValueDef fn} :
    d ∈ (transfer info (m, f) e).1 b r ↔
      d ∈ m b r ∨ b = e.1 ∧ r ∈ transferred info e.1 e.2 ∧ d ∈ m e.2 r := by
  by_cases hb : b = e.1
  · subst hb
    by_cases hr : r ∈ transferred info e.1 e.2
    · simp [transfer, hr]
    · simp [transfer, hr]
  · simp [transfer, hb]

theorem transfer_of_settled {f : Bool} {e : fn.Block × fn.Block} (h : Settled info m e) :
    transfer info (m, f) e = (m, f) := by
  refine Prod.ext ?_ ?_
  · funext b r
    ext d
    rw [mem_transfer]
    refine ⟨?_, .inl⟩
    rintro (hd | ⟨rfl, hr, hd⟩)
    · exact hd
    · exact h r hr hd
  · show (f || !decide (Settled info m e)) = f
    simp [h]

theorem transfer_flag {f : Bool} {e : fn.Block × fn.Block} (h : ¬ Settled info m e) :
    (transfer info (m, f) e).2 = true := by
  show (f || !decide (Settled info m e)) = true
  simp [h]

theorem foldl_transfer_flag (edges : List (fn.Block × fn.Block)) :
    (edges.foldl (transfer info) (m, true)).2 = true := by
  induction edges generalizing m with
  | nil => rfl
  | cons e edges ih =>
    rw [List.foldl_cons]
    by_cases h : Settled info m e
    · rw [transfer_of_settled h]
      exact ih
    · rw [show transfer info (m, true) e = ((transfer info (m, true) e).1, true) from
        Prod.ext rfl (transfer_flag h)]
      exact ih

/-- A round that reports no change found every edge settled, and changed nothing. -/
theorem transferAll_stable {edges : List (fn.Block × fn.Block)}
    (h : (transferAll info edges m).2 = false) :
    (transferAll info edges m).1 = m ∧ ∀ e ∈ edges, Settled info m e := by
  unfold transferAll at h ⊢
  induction edges generalizing m with
  | nil => exact ⟨rfl, by simp⟩
  | cons e edges ih =>
    rw [List.foldl_cons] at h ⊢
    by_cases he : Settled info m e
    · rw [transfer_of_settled he] at h ⊢
      obtain ⟨heq, hall⟩ := ih h
      exact ⟨heq, List.forall_mem_cons.mpr ⟨he, hall⟩⟩
    · rw [show transfer info (m, false) e = ((transfer info (m, false) e).1, true) from
        Prod.ext rfl (transfer_flag he), foldl_transfer_flag] at h
      cases h

/-- The sets hold the initial definitions, and nothing but transfers of them. -/
structure Inv (info : fn.Block → BlockInfo) (m : FunctionDefMap fn) : Prop where
  initial : ∀ b r,
    initializeOtherDef info (initializeInstructionDef info) b r ⊆ m b r
  sound : ∀ b r d, d ∈ m b r → Flows info r d b

theorem mem_initial (hwf : fn.WellFormed)
    (hkill : ∀ b, (info b).varKill = (Liveness.initBlock (fn.block b)).varKill)
    {b : fn.Block} {r : Register} {d : ValueDef fn} :
    d ∈ initializeOtherDef info (initializeInstructionDef info) b r ↔
      r ∈ (info b).liveOut ∧ (LastDef r d b (fn.block b).insns.length ∨
        Clear r b (fn.block b).insns.length ∧ fn.isEntryBlock b ∧ EntryDef r d) := by
  have hclear : r ∉ (info b).varKill ↔ Clear r b (fn.block b).insns.length := by
    rw [hkill, clear_iff_notMem_varKill]
  unfold initializeOtherDef
  split
  · rename_i h
    rw [Finset.mem_union, initializeInstructionDef_spec hwf, mem_otherDef]
    simp only [h.1, h.2.1, hclear.mp h.2.2, true_and]
  · rename_i h
    rw [initializeInstructionDef_spec hwf]
    rw [hclear] at h
    tauto

theorem initial_inv (hwf : fn.WellFormed)
    (hkill : ∀ b, (info b).varKill = (Liveness.initBlock (fn.block b)).varKill) :
    Inv info (initializeOtherDef info (initializeInstructionDef info)) where
  initial _ _ := Finset.Subset.refl _
  sound b r d hd := by
    obtain ⟨hlive, hd | ⟨hc, htop, hd⟩⟩ := (mem_initial hwf hkill).mp hd
    · exact .here hlive hd
    · exact .entry hlive hc htop hd

theorem transfer_inv (hkill : ∀ b, (info b).varKill = (Liveness.initBlock (fn.block b)).varKill)
    {f : Bool} {e : fn.Block × fn.Block} (he : e.2 ∈ fn.predecessors e.1) (hm : Inv info m) :
    Inv info (transfer info (m, f) e).1 where
  initial b r d hd := mem_transfer.mpr (.inl (hm.initial b r hd))
  sound b r d hd := by
    rcases mem_transfer.mp hd with hd | ⟨rfl, hr, hd⟩
    · exact hm.sound b r d hd
    · simp only [transferred, Finset.mem_sdiff, Finset.mem_inter, hkill,
        ← clear_iff_notMem_varKill] at hr
      exact .edge (hm.sound _ r d hd) (fn.mem_predecessors.mp he) hr.1.1 hr.2

theorem transferAll_inv
    (hkill : ∀ b, (info b).varKill = (Liveness.initBlock (fn.block b)).varKill)
    {edges : List (fn.Block × fn.Block)} (hedges : ∀ e ∈ edges, e.2 ∈ fn.predecessors e.1)
    (hm : Inv info m) : Inv info (transferAll info edges m).1 := by
  unfold transferAll
  generalize false = f
  induction edges generalizing m f with
  | nil => exact hm
  | cons e edges ih =>
    obtain ⟨he, hedges⟩ := List.forall_mem_cons.mp hedges
    exact ih hedges (transfer_inv hkill he hm) _

/-- When every edge is settled the sets are the transfers. -/
theorem Inv.mem_iff (hwf : fn.WellFormed)
    (hkill : ∀ b, (info b).varKill = (Liveness.initBlock (fn.block b)).varKill)
    (hm : Inv info m)
    (hsettled : ∀ c p, p ∈ fn.predecessors c → Settled info m (c, p))
    {b : fn.Block} {r : Register} {d : ValueDef fn} : d ∈ m b r ↔ Flows info r d b := by
  refine ⟨hm.sound b r d, fun h => ?_⟩
  induction h with
  | here hlive hd => exact hm.initial _ r ((mem_initial hwf hkill).mpr ⟨hlive, .inl hd⟩)
  | entry hlive hc htop hd =>
    exact hm.initial _ r ((mem_initial hwf hkill).mpr ⟨hlive, .inr ⟨hc, htop, hd⟩⟩)
  | @edge p c hflow hsucc hlive hc ih =>
    refine hsettled c p (fn.mem_predecessors.mpr hsucc) r ?_ ih
    simp only [transferred, Finset.mem_sdiff, Finset.mem_inter, hkill,
      ← clear_iff_notMem_varKill]
    exact ⟨⟨hlive, hflow.mem_liveOut⟩, hc⟩

/-! ### The iteration ends -/

/-- All the definitions there are at the start. -/
def initialDefs (info : fn.Block → BlockInfo) : DefSet fn :=
  Finset.univ.biUnion fun b => (info b).liveOut.biUnion fun r =>
    initializeOtherDef info (initializeInstructionDef info) b r

/-- How many definitions the sets may still gain. -/
def missing (info : fn.Block → BlockInfo) (m : FunctionDefMap fn) : ℕ :=
  ∑ b, ∑ r ∈ (info b).liveOut, ((initialDefs info).card - (m b r).card)

theorem transfer_missing {f : Bool} {e : fn.Block × fn.Block}
    (hm : ∀ b r, m b r ⊆ initialDefs info) (he : ¬ Settled info m e) :
    (∀ b r, (transfer info (m, f) e).1 b r ⊆ initialDefs info) ∧
      missing info (transfer info (m, f) e).1 < missing info m := by
  have hsub : ∀ b r, (transfer info (m, f) e).1 b r ⊆ initialDefs info := by
    intro b r d hd
    rcases mem_transfer.mp hd with hd | ⟨-, -, hd⟩
    · exact hm b r hd
    · exact hm e.2 r hd
  have hmono : ∀ b r, m b r ⊆ (transfer info (m, f) e).1 b r := fun b r d hd =>
    mem_transfer.mpr (.inl hd)
  have hle : ∀ b r, (initialDefs info).card - ((transfer info (m, f) e).1 b r).card ≤
      (initialDefs info).card - (m b r).card := fun b r =>
    Nat.sub_le_sub_left (Finset.card_le_card (hmono b r)) _
  refine ⟨hsub, ?_⟩
  -- the register that some definition was missing for
  unfold Settled at he
  push Not at he
  obtain ⟨r, hr, hnot⟩ := he
  have hlive : r ∈ (info e.1).liveOut := by
    simp only [transferred, Finset.mem_sdiff, Finset.mem_inter] at hr
    exact hr.1.1
  refine Finset.sum_lt_sum (fun b _ => Finset.sum_le_sum fun r _ => hle b r)
    ⟨e.1, Finset.mem_univ _, Finset.sum_lt_sum (fun r _ => hle e.1 r) ⟨r, hlive, ?_⟩⟩
  obtain ⟨d, hd, hnd⟩ := Finset.not_subset.mp hnot
  have hlt := Finset.card_lt_card (Finset.ssubset_iff_subset_ne.mpr ⟨hmono e.1 r, fun heq =>
    hnd (heq ▸ mem_transfer.mpr (.inr ⟨rfl, hr, hd⟩))⟩)
  have hcard := Finset.card_le_card (hsub e.1 r)
  omega

theorem transferAll_missing (edges : List (fn.Block × fn.Block))
    (hm : ∀ b r, m b r ⊆ initialDefs info) :
    (∀ b r, (transferAll info edges m).1 b r ⊆ initialDefs info) ∧
      missing info (transferAll info edges m).1 ≤ missing info m ∧
      ((transferAll info edges m).2 = true →
        missing info (transferAll info edges m).1 < missing info m) := by
  unfold transferAll
  suffices h : ∀ f, (∀ b r, (edges.foldl (transfer info) (m, f)).1 b r ⊆ initialDefs info) ∧
      missing info (edges.foldl (transfer info) (m, f)).1 ≤ missing info m ∧
      (f = false → (edges.foldl (transfer info) (m, f)).2 = true →
        missing info (edges.foldl (transfer info) (m, f)).1 < missing info m) by
    obtain ⟨h1, h2, h3⟩ := h false
    exact ⟨h1, h2, h3 rfl⟩
  induction edges generalizing m with
  | nil => exact fun f => ⟨hm, le_rfl, fun hf h => absurd h (by simp [hf])⟩
  | cons e edges ih =>
    intro f
    rw [List.foldl_cons]
    by_cases he : Settled info m e
    · rw [transfer_of_settled he]
      exact ih hm f
    · obtain ⟨hsub, hlt⟩ := transfer_missing (f := f) hm he
      obtain ⟨h1, h2, -⟩ := ih hsub (transfer info (m, f) e).2
      exact ⟨h1, h2.trans hlt.le, fun _ _ => h2.trans_lt hlt⟩

/-- The constructor of `LiveOutSet` ends, and its sets are the transfers. -/
theorem build_spec (hwf : fn.WellFormed)
    (hkill : ∀ b, (info b).varKill = (Liveness.initBlock (fn.block b)).varKill)
    {edges : List (fn.Block × fn.Block)}
    (hedges : ∀ c p, (c, p) ∈ edges ↔ p ∈ fn.predecessors c) :
    ∃ m : FunctionDefMap fn, (∀ b r d, d ∈ m b r ↔ Flows info r d b) ∧
      ∃ k, ∀ fuel, k < fuel → build info edges fuel = some m := by
  set m0 := initializeOtherDef info (initializeInstructionDef info) with hm0
  have hsub : ∀ b r, m0 b r ⊆ initialDefs info := by
    intro b r d hd
    have hlive := ((mem_initial hwf hkill).mp hd).1
    exact Finset.mem_biUnion.mpr
      ⟨b, Finset.mem_univ _, Finset.mem_biUnion.mpr ⟨r, hlive, hd⟩⟩
  have hpreds : ∀ e ∈ edges, e.2 ∈ fn.predecessors e.1 := fun e he => (hedges e.1 e.2).mp he
  obtain ⟨t, ht, hstop, hfuel⟩ := Iterate.untilStable_spec
    (I := fun m => Inv info m ∧ ∀ b r, m b r ⊆ initialDefs info) (missing info)
    (fun m hm => ⟨transferAll_inv hkill hpreds hm.1, (transferAll_missing edges hm.2).1⟩)
    (fun m hm => (transferAll_missing edges hm.2).2.2)
    (missing info m0) m0 le_rfl ⟨initial_inv hwf hkill, hsub⟩
  obtain ⟨heq, hsettled⟩ := transferAll_stable hstop
  refine ⟨t, fun b r d => ?_, missing info m0, fun fuel hlt => ?_⟩
  · exact ht.1.mem_iff hwf hkill fun c p hp => hsettled (c, p) ((hedges c p).mpr hp)
  · rw [build, iterateLiveOut, hfuel fuel hlt, heq]

end LiveOutSet

namespace FunctionDAG

open LiveOutSet (FunctionDefMap makeDefSet)

/-! ### The walk over a block -/

section Walk

variable {m : FunctionDefMap fn} {live : LiveSets fn} {b : fn.Block} {i : ℕ}
  {insn : Instruction} (hwf : fn.WellFormed) (hm : ∀ b r d, d ∈ m b r ↔ Flows info r d b)
  (hl : IsSolution fn live) (hlo : ∀ b, live.2 b ⊆ ↑(info b).liveOut)

include hwf hm hl hlo in
/-- A use that no definition precedes in its block gets all that comes in; the
entries that `getDefSet` looks up exist because the register is alive. -/
theorem makeDefSet_spec (hi : (fn.block b).insns[i]? = some insn) {r : Register} (hr : r ∈ insn.src)
    (hclear : Clear r b i) :
    ∃ chain, makeDefSet info m b r = some chain ∧ ∀ d, d ∈ chain ↔ Incoming info r d b := by
  have hused := hl.closed.upwardUsed b (mem_upwardUsed_of_clear hi hr hclear)
  have hfound : ∀ p ∈ (fn.predecessors b).filter fun p => r ∉ (fn.block p).undefPhiRegs,
      r ∈ (info p).liveOut := by
    intro p hp
    obtain ⟨hpred, hundef⟩ := Finset.mem_filter.mp hp
    exact hlo p (hl.closed.edge p b (fn.mem_predecessors.mp hpred) ⟨hused, hundef⟩)
  refine ⟨_, if_pos hfound, fun d => ?_⟩
  have hentry : (d ∈ if fn.isEntryBlock b then LiveOutSet.entryDef fn r else ∅) ↔
      fn.isEntryBlock b ∧ EntryDef r d := by
    split
    · rename_i htop
      simp [htop, LiveOutSet.mem_entryDef hwf]
    · rename_i htop
      simp [htop]
  rw [Finset.mem_union, hentry, or_comm]
  simp only [Incoming, Finset.mem_biUnion, Finset.mem_filter, Function.mem_predecessors, hm,
    and_assoc]

/-- What the walk knows when it gets to position `i` of `b`. -/
def Known (info : fn.Block → BlockInfo) (w : Walk fn) (b : fn.Block) (i : ℕ) : Prop :=
  ∀ r, (∀ chain, w.allocated r = some chain → ∀ d, d ∈ chain ↔ Chain info r d b i) ∧
    (w.allocated r = none → Clear r b i)

/-- The UD chain of the use is the one of its register. -/
def Good (info : fn.Block → BlockInfo) (ud : ValueUse fn → DefSet fn) (u : ValueUse fn) : Prop :=
  ∀ r, u.getRegister = some r → ∀ d, d ∈ ud u ↔ Chain info r d u.b u.insn

include hwf hm hl hlo in
theorem useSrc_spec (hi : (fn.block b).insns[i]? = some insn) {w : Walk fn} (hw : Known info w b i)
    {src : Register × ℕ} (hsrc : insn.src[src.2]? = some src.1) :
    ∃ w', useSrc info m b i w src = some w' ∧ Known info w' b i ∧
      Good info w'.udGraph ⟨b, i, src.2⟩ ∧
      ∀ u, u ≠ ⟨b, i, src.2⟩ → w'.udGraph u = w.udGraph u := by
  obtain ⟨r, k⟩ := src
  have hreg : (⟨b, i, k⟩ : ValueUse fn).getRegister = some r := by
    simp only [ValueUse.getRegister, hi, Option.bind_some]
    exact hsrc
  have hgood : ∀ chain, (∀ d, d ∈ chain ↔ Chain info r d b i) →
      Good info (Function.update w.udGraph ⟨b, i, k⟩ chain) ⟨b, i, k⟩ := by
    intro chain hchain r' hr' d
    obtain rfl := Option.some_inj.mp (hreg.symm.trans hr')
    rw [Function.update_self]
    exact hchain d
  unfold useSrc
  rcases halloc : w.allocated r with _ | chain
  · have hclear := (hw r).2 halloc
    obtain ⟨chain, hmake, hchain⟩ :=
      makeDefSet_spec hwf hm hl hlo hi (List.mem_of_getElem? hsrc) hclear
    have hchain' : ∀ d, d ∈ chain ↔ Chain info r d b i := by
      intro d
      rw [hchain]
      refine ⟨fun h => .inr ⟨hclear, h⟩, ?_⟩
      rintro (hd | ⟨-, hin⟩)
      · exact absurd hclear hd.not_clear
      · exact hin
    refine ⟨_, by simp only [hmake]; rfl, fun r' => ?_, hgood chain hchain', fun u hu => ?_⟩
    · by_cases hr : r' = r
      · subst hr
        simpa using hchain'
      · simpa [hr] using hw r'
    · exact Function.update_of_ne hu _ _
  · exact ⟨_, rfl, hw, hgood chain ((hw r).1 chain halloc), fun u hu =>
      Function.update_of_ne hu _ _⟩

include hwf hm hl hlo in
theorem useSrc_foldlM (hi : (fn.block b).insns[i]? = some insn) {srcs : List (Register × ℕ)}
    (hsrcs : ∀ src ∈ srcs, insn.src[src.2]? = some src.1) {w : Walk fn}
    (hw : Known info w b i) :
    ∃ w', srcs.foldlM (useSrc info m b i) w = some w' ∧ Known info w' b i ∧
      (∀ src ∈ srcs, Good info w'.udGraph ⟨b, i, src.2⟩) ∧
      ∀ u, (∀ src ∈ srcs, u ≠ ⟨b, i, src.2⟩) → w'.udGraph u = w.udGraph u := by
  induction srcs generalizing w with
  | nil => exact ⟨w, rfl, hw, by simp, fun _ _ => rfl⟩
  | cons src srcs ih =>
    obtain ⟨hsrc, hsrcs⟩ := List.forall_mem_cons.mp hsrcs
    obtain ⟨w1, h1, hw1, hgood1, hsame1⟩ := useSrc_spec hwf hm hl hlo hi hw hsrc
    obtain ⟨w2, h2, hw2, hgood2, hsame2⟩ := ih hsrcs hw1
    refine ⟨w2, by simp only [List.foldlM_cons, h1]; exact h2, hw2, ?_, fun u hu => ?_⟩
    · refine List.forall_mem_cons.mpr ⟨?_, hgood2⟩
      by_cases hagain : ∃ src' ∈ srcs, src'.2 = src.2
      · obtain ⟨src', hmem, heq⟩ := hagain
        exact heq ▸ hgood2 src' hmem
      · push Not at hagain
        intro r hr d
        rw [hsame2 _ fun src' hmem heq => hagain src' hmem
          (by injection heq with _ _ h; exact h.symm)]
        exact hgood1 r hr d
    · obtain ⟨hu1, hu2⟩ := List.forall_mem_cons.mp hu
      rw [hsame2 u hu2, hsame1 u hu1]

theorem defDst_foldl {dsts : List (Register × ℕ)} (hnd : (dsts.map Prod.fst).Nodup)
    (w : Walk fn) :
    (dsts.foldl (defDst b i) w).udGraph = w.udGraph ∧
    (∀ r k, (r, k) ∈ dsts →
      (dsts.foldl (defDst b i) w).allocated r = some {.insnDst b i k}) ∧
    ∀ r, r ∉ dsts.map Prod.fst → (dsts.foldl (defDst b i) w).allocated r = w.allocated r := by
  induction dsts generalizing w with
  | nil => exact ⟨rfl, by simp, fun _ _ => rfl⟩
  | cons dst dsts ih =>
    simp only [List.map_cons, List.nodup_cons] at hnd
    obtain ⟨h1, h2, h3⟩ := ih hnd.2 (defDst b i w dst)
    rw [List.foldl_cons]
    refine ⟨h1, fun r k hmem => ?_, fun r hr => ?_⟩
    · rcases List.mem_cons.mp hmem with rfl | hmem
      · rw [h3 r hnd.1]
        simp [defDst]
      · exact h2 r k hmem
    · simp only [List.map_cons, List.mem_cons, not_or] at hr
      rw [h3 r hr.2]
      simp [defDst, hr.1]

theorem defDst_known (hwf : fn.WellFormed) (hi : (fn.block b).insns[i]? = some insn)
    {w : Walk fn} (hw : Known info w b i) :
    Known info (insn.dst.zipIdx.foldl (defDst b i) w) b (i + 1) := by
  have hnd : (insn.dst.zipIdx.map Prod.fst).Nodup := by
    rw [List.zipIdx_map_fst]
    exact hwf.dst_nodup b insn (List.mem_of_getElem? hi)
  obtain ⟨-, hdef, hsame⟩ := defDst_foldl (b := b) (i := i) hnd w
  intro r
  by_cases hr : r ∈ insn.dst
  · -- a destination: its chain is this very definition
    obtain ⟨k, hk⟩ := List.mem_iff_getElem?.mp hr
    have halloc := hdef r k (List.mk_mem_zipIdx_iff_getElem?.mpr hk)
    refine ⟨fun chain hchain d => ?_, fun hnone => absurd (halloc.symm.trans hnone) (by simp)⟩
    obtain rfl := Option.some_inj.mp (halloc.symm.trans hchain)
    rw [Finset.mem_singleton, Chain, clear_succ hi, lastDef_succ hi]
    constructor
    · rintro rfl
      exact .inl (.inl ⟨insn, k, hi, hk, rfl⟩)
    · rintro ((⟨insn', k', hi', hk', rfl⟩ | ⟨-, hr'⟩) | ⟨⟨-, hr'⟩, -⟩)
      · rw [hi, Option.some_inj] at hi'
        subst hi'
        have hnd' := hwf.dst_nodup b insn (List.mem_of_getElem? hi)
        rw [(List.getElem?_inj (List.getElem?_eq_some_iff.mp hk).1 hnd').mp (hk.trans hk'.symm)]
      · exact absurd hr hr'
      · exact absurd hr hr'
  · -- any other register keeps its chain
    rw [hsame r (by rwa [List.zipIdx_map_fst])]
    have hnot : ∀ d, ¬ DefinesAt r d b i := by
      rintro d ⟨insn', k, hi', hk, -⟩
      rw [hi, Option.some_inj] at hi'
      exact hr (hi' ▸ List.mem_of_getElem? hk)
    refine ⟨fun chain hchain d => ?_, fun hnone => (clear_succ hi).mpr ⟨(hw r).2 hnone, hr⟩⟩
    rw [(hw r).1 chain hchain d, Chain, Chain, clear_succ hi, lastDef_succ hi]
    simp [hnot, hr]

include hwf hm hl hlo in
theorem walkInsn_spec
    (hi : (fn.block b).insns[i]? = some insn) {w : Walk fn} (hw : Known info w b i) :
    ∃ w', walkInsn info m b w (insn, i) = some w' ∧ Known info w' b (i + 1) ∧
      (∀ k, Good info w'.udGraph ⟨b, i, k⟩) ∧
      ∀ u, u.b ≠ b ∨ u.insn ≠ i ∨ u.getRegister = none → w'.udGraph u = w.udGraph u := by
  have hsrcs : ∀ src ∈ insn.src.zipIdx, insn.src[src.2]? = some src.1 := fun src hsrc =>
    List.mem_zipIdx_iff_getElem?.mp hsrc
  obtain ⟨w', hrun, hknown, hgood, hsame⟩ := useSrc_foldlM hwf hm hl hlo hi hsrcs hw
  have hnd : (insn.dst.zipIdx.map Prod.fst).Nodup := by
    rw [List.zipIdx_map_fst]
    exact hwf.dst_nodup b insn (List.mem_of_getElem? hi)
  have hud := (defDst_foldl (b := b) (i := i) hnd w').1
  refine ⟨insn.dst.zipIdx.foldl (defDst b i) w', ?_, defDst_known hwf hi hknown, ?_, ?_⟩
  · simp only [walkInsn, hrun]
    rfl
  · intro k r hr
    rw [hud]
    have hk : insn.src[k]? = some r := by
      simp only [ValueUse.getRegister, hi, Option.bind_some] at hr
      exact hr
    exact hgood (r, k) (List.mk_mem_zipIdx_iff_getElem?.mpr hk) r hr
  · intro u hu
    rw [hud]
    refine hsame u fun src hsrc heq => ?_
    subst heq
    have hreg : (⟨b, i, src.2⟩ : ValueUse fn).getRegister = some src.1 := by
      simp only [ValueUse.getRegister, hi, Option.bind_some]
      exact hsrcs src hsrc
    simp [hreg] at hu

include hwf hm hl hlo in
theorem walkInsn_foldlM
    {rest : List Instruction} (hrest : (fn.block b).insns.drop i = rest) {w : Walk fn}
    (hw : Known info w b i) :
    ∃ w', (rest.zipIdx i).foldlM (walkInsn info m b) w = some w' ∧
      (∀ u, u.b = b → i ≤ u.insn → Good info w'.udGraph u) ∧
      ∀ u, u.b ≠ b ∨ u.insn < i ∨ u.getRegister = none → w'.udGraph u = w.udGraph u := by
  induction rest generalizing i w with
  | nil =>
    refine ⟨w, rfl, fun u hb hiu r hr => ?_, fun _ _ => rfl⟩
    -- there is no instruction at or behind position `i`
    have hlen : (fn.block b).insns.length ≤ u.insn := (List.drop_eq_nil_iff.mp hrest).trans hiu
    subst hb
    simp [ValueUse.getRegister, List.getElem?_eq_none hlen] at hr
  | cons insn rest ih =>
    have hi : (fn.block b).insns[i]? = some insn := by
      have := congrArg (fun l => l[0]?) hrest
      simpa using this
    have hdrop : (fn.block b).insns.drop (i + 1) = rest := by
      rw [← List.tail_drop, hrest]
      rfl
    obtain ⟨w1, h1, hknown, hgood1, hsame1⟩ := walkInsn_spec hwf hm hl hlo hi hw
    obtain ⟨w2, h2, hgood2, hsame2⟩ := ih hdrop hknown
    refine ⟨w2, by simp only [List.zipIdx_cons, List.foldlM_cons, h1]; exact h2, ?_, ?_⟩
    · intro u hb hiu
      rcases hiu.eq_or_lt with heq | hlt
      · intro r hr d
        rw [hsame2 u (.inr (.inl (by omega)))]
        obtain ⟨ub, ui, uk⟩ := u
        simp only at hb heq
        subst hb heq
        exact hgood1 uk r hr d
      · exact hgood2 u hb hlt
    · rintro u (hu | hu | hu)
      · rw [hsame2 u (.inl hu), hsame1 u (.inl hu)]
      · rw [hsame2 u (.inr (.inl (by omega))), hsame1 u (.inr (.inl (by omega)))]
      · rw [hsame2 u (.inr (.inr hu)), hsame1 u (.inr (.inr hu))]

include hwf hm hl hlo in
theorem walkBlock_spec (ud : ValueUse fn → DefSet fn) (b : fn.Block) :
    ∃ ud', walkBlock info m ud b = some ud' ∧ (∀ u, u.b = b → Good info ud' u) ∧
      ∀ u, u.b ≠ b ∨ u.getRegister = none → ud' u = ud u := by
  have hstart : Known info ⟨fun _ => none, ud⟩ b 0 := fun r =>
    ⟨fun _ h => absurd h (by simp), fun _ => clear_zero r b⟩
  obtain ⟨w, hrun, hgood, hsame⟩ := walkInsn_foldlM (i := 0) hwf hm hl hlo rfl hstart
  rw [List.drop_zero] at hrun
  refine ⟨w.udGraph, ?_, fun u hb => hgood u hb (Nat.zero_le _), ?_⟩
  · simp only [walkBlock, hrun]
    rfl
  · rintro u (hu | hu)
    · exact hsame u (.inl hu)
    · exact hsame u (.inr (.inr hu))

include hwf hm hl hlo in
theorem walkBlock_foldlM (blocks : List fn.Block) (ud : ValueUse fn → DefSet fn) :
    ∃ ud', blocks.foldlM (walkBlock info m) ud = some ud' ∧
      (∀ u, u.b ∈ blocks → Good info ud' u) ∧
      ∀ u, u.b ∉ blocks ∨ u.getRegister = none → ud' u = ud u := by
  induction blocks generalizing ud with
  | nil => exact ⟨ud, rfl, by simp, fun _ _ => rfl⟩
  | cons b blocks ih =>
    obtain ⟨ud1, h1, hgood1, hsame1⟩ := walkBlock_spec hwf hm hl hlo ud b
    obtain ⟨ud2, h2, hgood2, hsame2⟩ := ih ud1
    refine ⟨ud2, by simp only [List.foldlM_cons, h1]; exact h2, fun u hu => ?_, ?_⟩
    · by_cases hmem : u.b ∈ blocks
      · exact hgood2 u hmem
      · intro r hr d
        rw [hsame2 u (.inl hmem)]
        exact hgood1 u ((List.mem_cons.mp hu).resolve_right hmem) r hr d
    · rintro u (hu | hu)
      · simp only [List.mem_cons, not_or] at hu
        rw [hsame2 u (.inl hu.2), hsame1 u (.inl hu.1)]
      · rw [hsame2 u (.inr hu), hsame1 u (.inr hu)]

end Walk

/-! ### The inverse chains -/

theorem mem_uses {u : ValueUse fn} : u ∈ uses fn ↔ ∃ r, u.getRegister = some r := by
  simp only [uses, List.mem_flatMap, List.mem_finRange, true_and, List.mem_map, List.mem_range]
  constructor
  · rintro ⟨b, ⟨insn, i⟩, hmem, k, hk, rfl⟩
    have hi := List.mk_mem_zipIdx_iff_getElem?.mp hmem
    refine ⟨insn.src[k], ?_⟩
    simp only [ValueUse.getRegister, hi, Option.bind_some]
    exact List.getElem?_eq_getElem hk
  · rintro ⟨r, hr⟩
    obtain ⟨insn, hi, hk⟩ := Option.bind_eq_some_iff.mp hr
    exact ⟨u.b, (insn, u.insn), List.mk_mem_zipIdx_iff_getElem?.mpr hi, u.srcID,
      (List.getElem?_eq_some_iff.mp hk).1, rfl⟩

theorem mem_foldl_pushUse {ud : ValueUse fn → DefSet fn} {us : List (ValueUse fn)}
    {du : ValueDef fn → UseSet fn} {d : ValueDef fn} {u : ValueUse fn} :
    u ∈ us.foldl (pushUse ud) du d ↔ u ∈ du d ∨ u ∈ us ∧ d ∈ ud u := by
  induction us generalizing du with
  | nil => simp
  | cons v us ih =>
    rw [List.foldl_cons, ih, pushUse]
    by_cases hv : d ∈ ud v
    · rw [if_pos hv, Finset.mem_insert, List.mem_cons]
      constructor
      · rintro ((rfl | h) | h)
        · exact .inr ⟨.inl rfl, hv⟩
        · exact .inl h
        · exact .inr ⟨.inr h.1, h.2⟩
      · rintro (h | ⟨rfl | h, hd⟩)
        · exact .inl (.inr h)
        · exact .inl (.inl rfl)
        · exact .inr ⟨h, hd⟩
    · rw [if_neg hv, List.mem_cons]
      constructor
      · rintro (h | h)
        · exact .inl h
        · exact .inr ⟨.inr h.1, h.2⟩
      · rintro (h | ⟨rfl | h, hd⟩)
        · exact .inl h
        · exact absurd hd hv
        · exact .inr ⟨h, hd⟩

/-! ### The result -/

/-- The constructor ends, none of its assertions fails, each UD chain is the
`Chain` of its use, and the DU chains are the inverse of the UD chains. -/
theorem build_chains (hwf : fn.WellFormed) {isInGenBackend : Bool}
    (hinfo : IsLiveness fn isInGenBackend info) (edges : List (fn.Block × fn.Block))
    (hedges : ∀ c p, (c, p) ∈ edges ↔ p ∈ fn.predecessors c) :
    ∃ dag : FunctionDAG fn, (∃ k, ∀ fuel, k < fuel → build info edges fuel = some dag) ∧
      (∀ u, Good info dag.udGraph u) ∧ ∀ d u, u ∈ dag.duGraph d ↔ d ∈ dag.udGraph u := by
  obtain ⟨hkill, live, hl, hlo⟩ := hinfo.spec
  obtain ⟨m, hm, k, hfuel⟩ := LiveOutSet.build_spec hwf hkill hedges
  obtain ⟨ud, hrun, hgood, hsame⟩ :=
    walkBlock_foldlM hwf hm hl hlo (List.finRange fn.blockNum) fun _ => ∅
  refine ⟨⟨ud, (uses fn).foldl (pushUse ud) fun _ => ∅⟩, ⟨k, fun fuel hlt => ?_⟩,
    fun u => hgood u (List.mem_finRange _), fun d u => ?_⟩
  · simp only [build, hfuel fuel hlt, hrun, Option.bind_eq_bind, Option.bind_some]
  · show u ∈ (uses fn).foldl (pushUse ud) (fun _ => ∅) d ↔ d ∈ ud u
    rw [mem_foldl_pushUse]
    simp only [Finset.notMem_empty, false_or, and_iff_right_iff_imp]
    intro hd
    refine mem_uses.mpr (Option.ne_none_iff_exists'.mp fun hnone => ?_)
    rw [hsame u (.inr hnone)] at hd
    exact absurd hd (Finset.notMem_empty d)

/-- **UD and DU chains.**  For every function and its liveness, in whatever order the
edges are visited, the constructor of `FunctionDAG` ends without failing an
assertion; the UD chains are the reaching definitions and the DU chains their
inverse exactly when no definition leaks over an edge whose source declares the
register undefined. -/
theorem functionDAG_chains (fn : Function) (hwf : fn.WellFormed) (isInGenBackend : Bool)
    (info : fn.Block → BlockInfo) (hinfo : IsLiveness fn isInGenBackend info)
    (edges : List (fn.Block × fn.Block))
    (hedges : ∀ c p, (c, p) ∈ edges ↔ p ∈ fn.predecessors c) :
    ∃ dag : FunctionDAG fn, (∃ k, ∀ fuel, k < fuel → build info edges fuel = some dag) ∧
      (((∀ u r, u.getRegister = some r → ∀ d, d ∈ dag.udGraph u ↔ Reaches r d u.b u.insn) ∧
        ∀ d u, u ∈ dag.duGraph d ↔ d ∈ dag.udGraph u) ↔ NoLeak fn info) := by
  obtain ⟨dag, hbuild, hgood, hdu⟩ := build_chains hwf hinfo edges hedges
  obtain ⟨-, live, hl, hlo⟩ := hinfo.spec
  refine ⟨dag, hbuild, ?_⟩
  rw [and_iff_left hdu, ← chain_iff_reaches hl hlo]
  constructor
  · intro h r d b i insn hi hr
    obtain ⟨k, hk⟩ := List.mem_iff_getElem?.mp hr
    have hreg : (⟨b, i, k⟩ : ValueUse fn).getRegister = some r := by
      simp only [ValueUse.getRegister, hi, Option.bind_some]
      exact hk
    exact (hgood ⟨b, i, k⟩ r hreg d).symm.trans (h ⟨b, i, k⟩ r hreg d)
  · intro h u r hreg d
    obtain ⟨insn, hi, hk⟩ := Option.bind_eq_some_iff.mp hreg
    exact (hgood u r hreg d).trans (h r d u.b u.insn insn hi (List.mem_of_getElem? hk))

/-- An instruction that is not a return. -/
def plain (src dst : List Register) : Instruction := ⟨.other, src, dst⟩

/-- For the literals of `Fin 2`. -/
local instance neZero_two : NeZero 2 := ⟨by decide⟩

/-- A loop of two blocks: the first defines a register, the second reads and
redefines it and goes back to itself. -/
def loopFn : Function where
  blockNum := 2
  block b := if b = 0 then ⟨plain [] [], [plain [] [50]], ∅, ∅⟩
    else ⟨plain [] [], [plain [50] [50]], ∅, ∅⟩
  successors _ := {1}
  loops := []
  profile := .PROFILE_OCL
  args := []
  pushMap := ∅

instance (k : ℕ) : OfNat loopFn.Block k := inferInstanceAs (OfNat (Fin 2) k)

theorem functionDAG_chains_loop :
    ∃ (info : loopFn.Block → BlockInfo) (dag : FunctionDAG loopFn),
      IsLiveness loopFn false info ∧
      (∃ k, ∀ fuel, k < fuel → build info [(1, 0), (1, 1)] fuel = some dag) ∧
      (∀ u r, u.getRegister = some r → ∀ d, d ∈ dag.udGraph u ↔ Reaches r d u.b u.insn) ∧
      ∀ d u, u ∈ dag.duGraph d ↔ d ∈ dag.udGraph u := by
  obtain ⟨info, hinfo⟩ := Liveness.exists_isLiveness loopFn false
  have hwf : loopFn.WellFormed := by
    refine ⟨by decide, by decide, by decide, by decide, ?_⟩
    decide
  obtain ⟨dag, hbuild, hiff⟩ := functionDAG_chains loopFn hwf false info hinfo
    [(1, 0), (1, 1)] (by decide)
  have hundef : ∀ b, (loopFn.block b).undefPhiRegs = ∅ := by decide
  exact ⟨info, dag, hinfo, hbuild, hiff.mpr (noLeak_of_undefPhiRegs_eq_empty hundef)⟩

/-- Four blocks in a row.  The first defines a register, the second declares it
undefined although it has to be kept alive, and the last one reads it. -/
def leakFn : Function where
  blockNum := 4
  block b :=
    if b = 0 then ⟨plain [] [], [plain [] [50]], ∅, ∅⟩
    else if b = 1 then ⟨plain [] [], [], {50}, {50}⟩
    else if b = 2 then ⟨plain [] [], [], ∅, ∅⟩
    else ⟨plain [] [], [⟨.OP_RET, [50], []⟩], ∅, ∅⟩
  successors b := if b = 0 then {1} else if b = 1 then {2} else if b = 2 then {3} else ∅
  loops := []
  profile := .PROFILE_OCL
  args := []
  pushMap := ∅

instance (k : ℕ) : OfNat leakFn.Block k := inferInstanceAs (OfNat (Fin 4) k)

/-- Every edge out of the second block is closed to the register. -/
theorem leakFn_reaches {d : ValueDef leakFn} {b : leakFn.Block} {i : ℕ}
    (h : Reaches 50 d b i) : b = 0 ∨ b = 1 := by
  induction h with
  | @defined b i hd =>
    obtain ⟨insn, k, hi, hk, -⟩ := hd
    have hall : ∀ b : leakFn.Block, (∃ insn ∈ (leakFn.block b).insns, 50 ∈ insn.dst) → b = 0 := by
      decide
    exact .inl (hall b ⟨insn, List.mem_of_getElem? hi, List.mem_of_getElem? hk⟩)
  | entry htop _ => exact .inl (Fin.ext htop)
  | step _ _ _ ih => exact ih
  | @edge b c _ hsucc hu _ =>
    have hall : ∀ b c : leakFn.Block, c ∈ leakFn.successors b →
        50 ∉ (leakFn.block b).undefPhiRegs → b = 0 ∨ b = 1 → c = 0 ∨ c = 1 := by
      decide
    exact hall b c hsucc hu ‹_›

theorem leakFn_livePath {info : leakFn.Block → BlockInfo}
    (h : ∀ b : leakFn.Block, b = 0 ∨ b = 1 → 50 ∈ (info b).liveOut) :
    LivePath info 50 (.insnDst 0 1 0) (2 : leakFn.Block) 1 := by
  have h0 : LivePath info 50 (.insnDst 0 1 0) (0 : leakFn.Block) 2 :=
    .defined ⟨plain [] [50], 0, rfl, rfl, rfl⟩
  have h1 : LivePath info 50 (.insnDst 0 1 0) (1 : leakFn.Block) 1 :=
    .step (.edge h0 (by decide) (h 0 (.inl rfl))) rfl (by decide)
  exact .step (.edge h1 (by decide) (h 1 (.inr rfl))) rfl (by decide)

/-- The definition in the first block is in the chain of the use in the last one,
although the only path between them crosses an edge whose source declares the
register undefined. -/
theorem leakFn_chain :
    leakFn.WellFormed ∧ ∃ (info : leakFn.Block → BlockInfo) (dag : FunctionDAG leakFn),
      IsLiveness leakFn false info ∧
      (∃ k, ∀ fuel, k < fuel → build info [(1, 0), (2, 1), (3, 2)] fuel = some dag) ∧
      (⟨3, 1, 0⟩ : ValueUse leakFn).getRegister = some 50 ∧
      .insnDst 0 1 0 ∈ dag.udGraph ⟨3, 1, 0⟩ ∧
      ¬ Reaches 50 (.insnDst 0 1 0) (3 : leakFn.Block) 1 := by
  obtain ⟨info, hinfo⟩ := Liveness.exists_isLiveness leakFn false
  have hwf : leakFn.WellFormed := by
    refine ⟨by decide, by decide, by decide, by decide, ?_⟩
    decide
  obtain ⟨dag, hbuild, hgood, -⟩ := build_chains hwf hinfo
    [(1, 0), (2, 1), (3, 2)] (by decide)
  obtain ⟨-, live, hl, hlo⟩ := hinfo.spec
  have hc := hl.closed
  refine ⟨hwf, info, dag, hinfo, hbuild, rfl, ?_, fun h => ?_⟩
  · -- the register is alive at the end of the first three blocks
    have hin3 : 50 ∈ live.1 3 := hc.upwardUsed 3 (by decide)
    have hout2 : 50 ∈ live.2 2 := hc.edge 2 3 (by decide) ⟨hin3, by decide⟩
    have hout1 : 50 ∈ live.2 1 := hc.init 1 (by decide)
    have hin1 : 50 ∈ live.1 1 := hc.through 1 ⟨hout1, by decide⟩
    have hout0 : 50 ∈ live.2 0 := hc.edge 0 1 (by decide) ⟨hin1, by decide⟩
    have halive : ∀ b : leakFn.Block, b = 0 ∨ b = 1 → 50 ∈ (info b).liveOut := by
      rintro b (rfl | rfl)
      · exact hlo 0 hout0
      · exact hlo 1 hout1
    refine (hgood ⟨3, 1, 0⟩ 50 rfl _).mpr (.inr ⟨?_, .inr ⟨2, by decide, by decide, ?_⟩⟩)
    · intro j hj insn hinsn
      obtain rfl : j = 0 := Nat.lt_one_iff.mp hj
      obtain rfl := Option.some_inj.mp hinsn
      decide
    · exact flows_of_livePath (leakFn_livePath halive) (hlo 2 hout2)
  · exact absurd (leakFn_reaches h) (by decide)

end FunctionDAG

end Ir
