/-
Non-interference of the linear scan.

A register is active while it owns a block of the register file.  A register put into a
hole owns none: it shares the block of the owner of the hole.

* `getHoleRegFitness_le_two` — what the search for a hole accepts lies in the hole;
* `Scan` — the invariant: whatever is put into a hole lies in it, and the owner of the
  hole lives on when a register in it is expired; active registers own different blocks
  as long as the steps meet the condition;
* `StepsMeet` — the condition on the state before a register is expired or put into a
  hole;
* `grf_non_interference_iff` — registers live at the same point have disjoint bytes and
  no block is freed while a live register has bytes in it, exactly when every step meets
  the condition;
* `expired_hole_user` — an allocation that expires a register in a hole.
-/
import Beignet.Backend.RegAllocation

open Rounding

namespace Backend

namespace GenRegAllocator

/-! ### Fitness -/

theorem f32_two_add {x : ℚ} (h₀ : 2⁻¹ * 2 ^ (-22 : ℤ) < x) (h1 : x < 2) : 2 < f32 (2 + x) := by
  have hx : (0 : ℚ) < 2 + x := by linarith
  have hlog : Int.log 2 (2 + x) = 1 := by
    have hlt := (Int.lt_zpow_iff_log_lt (x := 2) one_lt_two hx).mp (by norm_num; linarith)
    have hle := (Int.zpow_le_iff_le_log (x := 1) one_lt_two hx).mp (by norm_num; linarith)
    omega
  have h := lt_roundTo (p := 24) (n := 2 ^ 23) hlog (by norm_num at h₀ ⊢; linarith)
  norm_num at h
  exact h

/-- An end that lies in the hole adds something that single precision still sees beside
the `2` of an end that does not. -/
theorem IDFitness_bounds {a b : ℤ} (hle : b ≤ a) (hlt : a - b + 1 < 2 ^ 23) :
    2⁻¹ * 2 ^ (-22 : ℤ) < IDFitness a b ∧ IDFitness a b < 2 := by
  obtain ⟨n, hn⟩ : ∃ n : ℕ, a - b + 1 = n := ⟨(a - b + 1).toNat, by omega⟩
  have hn0 : 0 < n := by omega
  have hn1 : n < 2 ^ 23 := by
    zify
    omega
  have hcast : f32 ((a - b + 1 : ℤ) : ℚ) = n := by
    rw [hn, Int.cast_natCast]
    exact roundTo_natCast hn0 (hn1.trans (by norm_num))
  have hlow : (1 : ℚ) ≤ n := by exact_mod_cast hn0
  have hhigh : (n : ℚ) ≤ 2 ^ 23 - 1 := by
    have h : (n : ℚ) + 1 ≤ (2 ^ 23 : ℕ) := by exact_mod_cast hn1
    push_cast at h
    linarith
  have hinv : 1 / (2 ^ 23 - 1 : ℚ) ≤ 1 / n := one_div_le_one_div_of_le (by linarith) hhigh
  have hinv' : (1 : ℚ) / n ≤ 1 := by
    rw [div_le_one (by linarith)]
    exact hlow
  have herr := abs_le.mp (abs_roundTo_sub_le (p := 24) (show (0 : ℚ) < 1 / n by positivity))
  rw [IDFitness, if_pos (by omega), hcast]
  unfold f32
  norm_num at hinv herr ⊢
  norm_num at hinv'
  exact ⟨by linarith [herr.1], by linarith [herr.2]⟩

/-- **What the search accepts lies in the hole**, unless the IDs are so far apart that
the sum is rounded to `2`. -/
theorem getHoleRegFitness_le_two {interval : GenRegInterval} {tag : HoleRegTag}
    (h₀ : interval.minID - tag.startID + 1 < 2 ^ 23)
    (h1 : tag.endID - interval.maxID + 1 < 2 ^ 23)
    (h : getHoleRegFitness interval tag ≤ 2) :
    tag.startID ≤ interval.minID ∧ interval.maxID ≤ tag.endID := by
  unfold getHoleRegFitness at h
  by_contra hnot
  have hout : ∀ {a b : ℤ}, ¬ b ≤ a → IDFitness a b = 2 := fun hba => if_neg (by omega)
  by_cases hs : tag.startID ≤ interval.minID
  · have he : ¬ interval.maxID ≤ tag.endID := fun he => hnot ⟨hs, he⟩
    obtain ⟨hlow, hhigh⟩ := IDFitness_bounds hs h₀
    rw [hout he, add_comm] at h
    exact absurd h (not_le.mpr (f32_two_add hlow hhigh))
  · by_cases he : interval.maxID ≤ tag.endID
    · obtain ⟨hlow, hhigh⟩ := IDFitness_bounds he h1
      rw [hout hs] at h
      exact absurd h (not_le.mpr (f32_two_add hlow hhigh))
    · have hfour : f32 (2 + 2) = 4 := by
        have := roundTo_natCast (p := 24) (n := 4) (by norm_num) (by norm_num)
        norm_num at this ⊢
        exact this
      rw [hout hs, hout he, hfour] at h
      norm_num at h

/-- The search answers with a hole of the right size that it did not find unfit. -/
theorem bestHole_spec {interval : GenRegInterval} {regSize : ℤ} :
    ∀ {tags : List HoleRegTag} {i : ℕ} {last : ℚ} {best : Option ℕ} {j : ℕ},
      bestHole interval regSize tags i last best = some j → best = some j ∨
        ∃ k tag, j = i + k ∧ tags[k]? = some tag ∧ tag.regSize = regSize ∧
          getHoleRegFitness interval tag ≤ 2 := by
  intro tags
  induction tags with
  | nil => exact fun h => .inl h
  | cons tag tags ih =>
    intro i last best j h
    -- the answer of the rest of the list, seen from this one
    have hrest : ∀ {last' : ℚ} {best' : Option ℕ},
        bestHole interval regSize tags (i + 1) last' best' = some j → best' = some j ∨
          ∃ k tag', j = i + k ∧ (tag :: tags)[k]? = some tag' ∧ tag'.regSize = regSize ∧
            getHoleRegFitness interval tag' ≤ 2 := by
      intro last' best' h
      rcases ih h with h | ⟨k, tag', rfl, htag, hsize, hfit⟩
      · exact .inl h
      · exact .inr ⟨k + 1, tag', by omega, by simpa using htag, hsize, hfit⟩
    simp only [bestHole] at h
    by_cases hsize : regSize ≠ tag.regSize
    · rw [if_pos hsize] at h
      exact hrest h
    rw [if_neg hsize] at h
    by_cases hfit : getHoleRegFitness interval tag > 2
    · rw [if_pos hfit] at h
      exact hrest h
    rw [if_neg hfit] at h
    have hself : (if getHoleRegFitness interval tag > last then some i else best) = some j →
        best = some j ∨ ∃ k tag', j = i + k ∧ (tag :: tags)[k]? = some tag' ∧
          tag'.regSize = regSize ∧ getHoleRegFitness interval tag' ≤ 2 := by
      intro h
      split at h
      · exact .inr ⟨0, tag, by simpa using h.symm, rfl, (not_not.mp hsize).symm, not_lt.mp hfit⟩
      · exact .inl h
    split at h
    · exact hself h
    · exact (hrest h).elim hself .inr

/-! ### Registers and holes -/

section Model

variable (P : Input) (s : State)

/-- The register is live at the point `p`. -/
def Live (r : ℕ) (p : ℤ) : Prop := (P.intervals r).minID ≤ p ∧ p ≤ (P.intervals r).maxID

instance (r : ℕ) (p : ℤ) : Decidable (Live P r p) := inferInstanceAs (Decidable (_ ∧ _))

/-- The hole, as declared. -/
def hole? (e : Placement) : Option HoleRegTag := (P.holes e.blockID)[e.pos]?

/-- The interval of the register that was placed lies in the hole. -/
def Inside (e : Placement) (tag : HoleRegTag) : Prop :=
  tag.startID ≤ (P.intervals e.reg).minID ∧ (P.intervals e.reg).maxID ≤ tag.endID

/-- `user` was put into the declared hole `tag`. -/
def PutInto (user : ℕ) (tag : HoleRegTag) : Prop :=
  ∃ e ∈ s.placed, e.reg = user ∧ hole? P e = some tag

/-- The point `p` is in a declared hole of `owner` into which `user` was put. -/
def InHole (owner user : ℕ) (p : ℤ) : Prop :=
  ∃ tag, PutInto P s user tag ∧ tag.reg = owner ∧ tag.startID ≤ p ∧ p ≤ tag.endID

def Expired (r : ℕ) : Prop := ∃ f ∈ s.freed, f.reg = r

/-- The register owns the block at `o`. -/
def Active (r : ℕ) (o : ℤ) : Prop :=
  s.registerMap r = some o ∧ (∀ e ∈ s.placed, e.reg ≠ r) ∧ ¬ Expired s r

/-- Two registers that are live at a point have disjoint bytes, unless the point is in a hole of one
of them into which the other was put; and no block was freed while another register with bytes in
it was live. -/
structure NonInterference : Prop where
  apart : ∀ r u o o' p, r ≠ u → s.registerMap r = some o → s.registerMap u = some o' →
    Live P r p → Live P u p → ¬ InHole P s r u p → ¬ InHole P s u r p →
      o + P.width r ≤ o' ∨ o' + P.width u ≤ o
  freed : ∀ f ∈ s.freed, ∀ u o, u ≠ f.reg → f.registerMap u = some o →
    f.block.offset < o + P.width u → o < f.block.offset + f.block.size →
      (P.intervals u).maxID < f.limit

/-- The condition on the steps of a run: on what had been put into holes before a register is
expired, and before one is put into a hole itself. -/
structure StepsMeet : Prop where
  /-- a register that is expired was not put into a hole -/
  expire : ∀ f ∈ s.freed, ∀ e ∈ f.placed, e.reg ≠ f.reg
  /-- a register is put into a hole whose owner is in no hole itself, and the registers in holes of
  that owner are not live together with the new one -/
  put : s.placed.Pairwise fun e' e => ∀ tag, hole? P e = some tag → e'.reg ≠ tag.reg ∧
    ∀ tag', hole? P e' = some tag' → tag'.reg = tag.reg → ∀ p, Live P e'.reg p → ¬ Live P e.reg p

/-- A register of a block and a hole of that block are less than `2 ^ 23 - 1` IDs
apart. -/
def Input.Near : Prop :=
  ∀ r, ∀ tag ∈ P.holes (P.intervals r).blockID,
    (P.intervals r).minID - tag.startID + 1 < 2 ^ 23 ∧
      tag.endID - (P.intervals r).maxID + 1 < 2 ^ 23

end Model

theorem StepsMeet.before {P : Input} {s s' : State} (h : StepsMeet P s')
    (hplaced : s.placed <+: s'.placed) (hfreed : ∀ f ∈ s.freed, f ∈ s'.freed) : StepsMeet P s :=
  ⟨fun f hf => h.expire f (hfreed f hf), h.put.sublist hplaced.sublist⟩

/-! ### The search for a hole -/

section Holes

variable {P : Input} {s : State}

/-- Everything the search for a hole can do. -/
theorem reuseHole_cases (P : Input) (s : State) (u : ℕ) :
    reuseHole P s u = s ∨ ∃ i tag', 0 ≤ (P.intervals u).blockID ∧
      (s.HoleRegPool (P.intervals u).blockID)[i]? = some tag' ∧ tag'.regSize = P.regSize u ∧
      getHoleRegFitness (P.intervals u) tag' ≤ 2 ∧
      (reuseHole P s u).HoleRegPool = Function.update s.HoleRegPool (P.intervals u).blockID
        ((s.HoleRegPool (P.intervals u).blockID).set i
          { tag' with startID := (P.intervals u).maxID + 1 }) ∧
      (reuseHole P s u).file = s.file ∧ (reuseHole P s u).freed = s.freed ∧
      (reuseHole P s u).ending = s.ending ∧
      ((reuseHole P s u).registerMap = s.registerMap ∧ (reuseHole P s u).placed = s.placed ∨
        ∃ o, s.registerMap tag'.reg = some o ∧
          (reuseHole P s u).registerMap = Function.update s.registerMap u (some o) ∧
          (reuseHole P s u).placed = s.placed ++ [⟨u, (P.intervals u).blockID, i⟩]) := by
  by_cases hb : (0 ≤ (P.intervals u).blockID && P.OCL_REUSE_HOLE_REG) = true
  · simp only [reuseHole, hb, if_true]
    rcases hbest : bestHole (P.intervals u) (P.regSize u)
      (s.HoleRegPool (P.intervals u).blockID) 0 0 none with _ | i
    · exact .inl rfl
    · obtain ⟨k, tag, hk, htag, hsize, hfit⟩ := (bestHole_spec hbest).resolve_left (by simp)
      obtain rfl : i = k := by omega
      simp only [htag]
      have hb0 : 0 ≤ (P.intervals u).blockID := by simpa using (Bool.and_eq_true_iff.mp hb).1
      refine .inr ⟨i, tag, hb0, htag, hsize, hfit, ?_⟩
      rcases ho : s.registerMap tag.reg with _ | o
      · exact ⟨rfl, rfl, rfl, rfl, .inl ⟨rfl, rfl⟩⟩
      · exact ⟨rfl, rfl, rfl, rfl, .inr ⟨o, rfl, rfl, rfl⟩⟩
  · simp only [reuseHole, hb]
    exact .inl rfl

/-- The pool as it is now: a hole begins behind everything that was put into it. -/
structure Holes (P : Input) (s : State) : Prop where
  pool : ∀ (b : ℤ) (i : ℕ) tag', (s.HoleRegPool b)[i]? = some tag' →
    ∃ tag, (P.holes b)[i]? = some tag ∧ tag'.reg = tag.reg ∧ tag'.regSize = tag.regSize ∧
      tag'.endID = tag.endID ∧ tag.startID ≤ tag'.startID ∧
      ∀ e ∈ s.placed, (e.blockID, e.pos) = (b, i) → (P.intervals e.reg).maxID < tag'.startID
  inside : ∀ e ∈ s.placed, ∃ tag, hole? P e = some tag ∧ Inside P e tag

theorem Holes.init : Holes P (init P) where
  pool _ _ tag' h := ⟨tag', h, rfl, rfl, rfl, le_rfl, fun _ he => absurd he List.not_mem_nil⟩
  inside _ he := absurd he List.not_mem_nil

/-- A hole that is used begins behind its new register, and nothing else changes. -/
theorem Holes.pool_set (h : Holes P s) {u i : ℕ} {b : ℤ} {tag' : HoleRegTag}
    (htag : (s.HoleRegPool b)[i]? = some tag') (hfit : tag'.startID ≤ (P.intervals u).minID)
    (hlive : (P.intervals u).minID ≤ (P.intervals u).maxID) {placed : List Placement}
    (hplaced : ∀ e ∈ placed, e ∈ s.placed ∨ e = ⟨u, b, i⟩) (b' : ℤ) (j : ℕ) (t : HoleRegTag)
    (ht : (Function.update s.HoleRegPool b ((s.HoleRegPool b).set i
      { tag' with startID := (P.intervals u).maxID + 1 }) b')[j]? = some t) :
    ∃ tag, (P.holes b')[j]? = some tag ∧ t.reg = tag.reg ∧ t.regSize = tag.regSize ∧
      t.endID = tag.endID ∧ tag.startID ≤ t.startID ∧
      ∀ e ∈ placed, (e.blockID, e.pos) = (b', j) → (P.intervals e.reg).maxID < t.startID := by
  by_cases hslot : b' = b ∧ j = i
  · obtain ⟨rfl, rfl⟩ := hslot
    obtain ⟨tag, hdecl, hreg, hsize, hend, hstart, hbehind⟩ := h.pool b' j tag' htag
    obtain ⟨hlt, -⟩ := List.getElem?_eq_some_iff.mp htag
    rw [Function.update_self, List.getElem?_set_self hlt, Option.some_inj] at ht
    subst ht
    refine ⟨tag, hdecl, hreg, hsize, hend, by dsimp only; omega, fun e he hat => ?_⟩
    dsimp only
    rcases hplaced e he with hold | rfl
    · have := hbehind e hold hat
      omega
    · dsimp only
      omega
  · have hsame : (s.HoleRegPool b')[j]? = some t := by
      by_cases hb : b' = b
      · subst hb
        rwa [Function.update_self, List.getElem?_set_ne (fun heq => hslot ⟨rfl, heq.symm⟩)] at ht
      · rwa [Function.update_of_ne hb] at ht
    obtain ⟨tag, hdecl, hreg, hsize, hend, hstart, hbehind⟩ := h.pool b' j t hsame
    refine ⟨tag, hdecl, hreg, hsize, hend, hstart, fun e he hat => ?_⟩
    rcases hplaced e he with hold | rfl
    · exact hbehind e hold hat
    · obtain ⟨hb, hj⟩ := Prod.mk.inj hat
      exact absurd ⟨hb.symm, hj.symm⟩ hslot

/-- The hole that is found has room for the register. -/
theorem Holes.fits (h : Holes P s) (hnear : P.Near) {u i : ℕ} {tag' : HoleRegTag}
    (htag : (s.HoleRegPool (P.intervals u).blockID)[i]? = some tag')
    (hfit : getHoleRegFitness (P.intervals u) tag' ≤ 2) :
    tag'.startID ≤ (P.intervals u).minID ∧ (P.intervals u).maxID ≤ tag'.endID := by
  obtain ⟨tag, hdecl, -, -, hend, hstart, -⟩ := h.pool _ _ _ htag
  -- the hole as it is now is as far away as the declared one at most
  obtain ⟨hn0, hn1⟩ := hnear u tag (List.mem_of_getElem? hdecl)
  exact getHoleRegFitness_le_two (by omega) (by omega) hfit

/-- One search for a hole. -/
theorem Holes.reuseHole (h : Holes P s) (hnear : P.Near) {u : ℕ}
    (hlive : 0 ≤ (P.intervals u).blockID → (P.intervals u).minID ≤ (P.intervals u).maxID) :
    Holes P (reuseHole P s u) := by
  rcases reuseHole_cases P s u with
    heq | ⟨i, tag', hb, htag, -, hfit, hpool, -, -, -, hmap⟩
  · rwa [heq]
  · obtain ⟨hlow, hhigh⟩ := h.fits hnear htag hfit
    obtain ⟨tag, hdecl, -, -, hend, hstart, -⟩ := h.pool _ _ _ htag
    rcases hmap with ⟨-, hplaced⟩ | ⟨o, -, -, hplaced⟩
    · refine ⟨?_, ?_⟩
      · rw [hpool, hplaced]
        exact h.pool_set htag hlow (hlive hb) fun e he => .inl he
      · rw [hplaced]
        exact h.inside
    · refine ⟨?_, ?_⟩
      · rw [hpool, hplaced]
        refine h.pool_set htag hlow (hlive hb) fun e he => ?_
        simpa only [List.mem_append, List.mem_singleton] using he
      · rw [hplaced]
        intro e he
        rcases List.mem_append.mp he with he | he
        · exact h.inside e he
        · rw [List.mem_singleton.mp he]
          exact ⟨tag, hdecl, hstart.trans hlow, hhigh.trans_eq hend⟩

end Holes

/-! ### The invariant -/

/-- When every interval that starts before `bound` has been dealt with: active registers own
different blocks. -/
structure Owned (P : Input) (s : State) (bound : ℤ) : Prop where
  active : ∀ r o, Active s r o → ∃ sz, s.file.allocatedBlocks o = some sz ∧ P.width r ≤ sz
  inj : ∀ r r' o, Active s r o → Active s r' o → r = r'
  expired : ∀ r, Expired s r → (P.intervals r).maxID < bound
  roots : ∀ e ∈ s.placed, ∀ tag, hole? P e = some tag → ∀ e' ∈ s.placed, e'.reg ≠ tag.reg
  sound : NonInterference P s

/-- When a register in a hole was expired, the owner of the hole lived on. -/
def Early (P : Input) (f : Freed) : Prop :=
  0 < f.block.size ∧ ∀ e ∈ f.placed, e.reg = f.reg → ∃ tag, hole? P e = some tag ∧
    tag.reg ≠ f.reg ∧ f.registerMap tag.reg = some f.block.offset ∧
    f.limit ≤ (P.intervals tag.reg).maxID

/-- The state of the scan; what depends on the steps is in `owned`. -/
structure Scan (P : Input) (total : ℤ) (s : State) (bound : ℤ) : Prop where
  file : ∃ l, SimpleAllocator.Inv GEN_REG_SIZE total s.file l
  holes : Holes P s
  placed : ∀ e ∈ s.placed, ∃ tag o, hole? P e = some tag ∧ s.registerMap e.reg = some o ∧
    s.registerMap tag.reg = some o ∧ P.width e.reg ≤ P.width tag.reg ∧
    (P.intervals e.reg).minID ≤ (P.intervals e.reg).maxID
  once : s.placed.Pairwise fun e' e => e'.reg ≠ e.reg
  flags : ∀ r, (s.registerMap r).isSome → P.flagBooleans r = false
  early : ∀ f ∈ s.freed, Early P f
  owned : StepsMeet P s → Owned P s bound

section Scan

variable {P : Input} {total bound : ℤ} {s s' : State}

theorem Scan.mono (h : Scan P total s bound) {bound' : ℤ} (hle : bound ≤ bound') :
    Scan P total s bound' :=
  { h with owned := fun hc => { h.owned hc with
      expired := fun r hr => lt_of_lt_of_le ((h.owned hc).expired r hr) hle } }

/-- The fields that the invariant reads. -/
theorem Scan.congr (h : Scan P total s bound) (hfile : s'.file = s.file)
    (hmap : s'.registerMap = s.registerMap) (hholes : Holes P s')
    (hplaced : s'.placed = s.placed) (hfreed : s'.freed = s.freed) : Scan P total s' bound := by
  obtain ⟨⟩ := s
  obtain ⟨⟩ := s'
  simp only at hfile hmap hplaced hfreed
  subst hfile hmap hplaced hfreed
  refine ⟨h.file, hholes, h.placed, h.once, h.flags, h.early, fun hc => ?_⟩
  obtain ⟨hactive, hinj, hexpired, hroots, hsound⟩ := h.owned ⟨hc.expire, hc.put⟩
  exact ⟨hactive, hinj, hexpired, hroots, hsound.apart, hsound.freed⟩

theorem width_pos (hP : P.WellFormed) (r : ℕ) : 0 < P.width r := by
  unfold Input.width
  split
  · rename_i o ho
    obtain ⟨-, hsome, -⟩ := hP.payload r o ho
    obtain ⟨sz, hsz⟩ := Option.isSome_iff_exists.mp hsome
    obtain ⟨total, l, hinv⟩ := hP.file
    rw [hsz]
    exact used_pos hinv.tiles hsz
  · exact hP.regSize_pos r

/-- A register that was put into a hole, and the owner of the hole. -/
structure Shares (P : Input) (s : State) (r : ℕ) (tag : HoleRegTag) (o : ℤ) : Prop where
  map : s.registerMap r = some o
  owner : s.registerMap tag.reg = some o
  width : P.width r ≤ P.width tag.reg
  live : (P.intervals r).minID ≤ (P.intervals r).maxID
  start : (P.intervals tag.reg).minID < (P.intervals r).minID
  finish : (P.intervals r).maxID < (P.intervals tag.reg).maxID
  hole : tag.startID ≤ (P.intervals r).minID ∧ (P.intervals r).maxID ≤ tag.endID

theorem Scan.shares (h : Scan P total s bound) (hP : P.WellFormed) {e : Placement}
    (he : e ∈ s.placed) : ∃ tag o, hole? P e = some tag ∧ Shares P s e.reg tag o := by
  obtain ⟨tag, o, htag, hmap, hown, hwidth, hlive⟩ := h.placed e he
  obtain ⟨tag', htag', hin⟩ := h.holes.inside e he
  obtain rfl := Option.some_inj.mp (htag'.symm.trans htag)
  obtain ⟨hstart, hend, -⟩ := hP.hole e.blockID tag' (List.mem_of_getElem? htag)
  exact ⟨tag', o, htag, hmap, hown, hwidth, hlive, hstart.trans_le hin.1, hin.2.trans_lt hend, hin⟩

/-- A register that lives on after the bound sits in a block that an active register
owns: itself, or the owner of the hole it was put into. -/
theorem Scan.owner (h : Scan P total s bound) (hP : P.WellFormed) (ho : Owned P s bound) {r : ℕ}
    {o : ℤ} (hr : s.registerMap r = some o) (hle : bound ≤ (P.intervals r).maxID) :
    ∃ g sz, Active s g o ∧ s.file.allocatedBlocks o = some sz ∧ P.width r ≤ P.width g ∧
      P.width g ≤ sz ∧ (g = r ∨ ∃ e ∈ s.placed, e.reg = r ∧ ∃ tag, hole? P e = some tag ∧
        tag.reg = g ∧ Shares P s r tag o) := by
  by_cases hp : ∀ e ∈ s.placed, e.reg ≠ r
  · have hact : Active s r o := ⟨hr, hp, fun hx => by have := ho.expired r hx; omega⟩
    obtain ⟨sz, hsz, hw⟩ := ho.active r o hact
    exact ⟨r, sz, hact, hsz, le_rfl, hw, .inl rfl⟩
  · push Not at hp
    obtain ⟨e, he, rfl⟩ := hp
    obtain ⟨tag, o', htag, hs⟩ := h.shares hP he
    obtain rfl : o' = o := Option.some_inj.mp (hs.map.symm.trans hr)
    have hact : Active s tag.reg o' := by
      refine ⟨hs.owner, ho.roots e he tag htag, fun hx => ?_⟩
      have := ho.expired _ hx
      have := hs.finish
      omega
    obtain ⟨sz, hsz, hw⟩ := ho.active tag.reg o' hact
    exact ⟨tag.reg, sz, hact, hsz, hs.width, hw, .inr ⟨e, he, rfl, tag, htag, rfl, hs⟩⟩

/-- Two tracked blocks that share a byte are one. -/
theorem same_block {file : SimpleAllocator}
    (hfile : ∃ l, SimpleAllocator.Inv GEN_REG_SIZE total file l) {o o' sz sz' w w' : ℤ}
    (ho : file.allocatedBlocks o = some sz) (ho' : file.allocatedBlocks o' = some sz')
    (hw : w ≤ sz) (hw' : w' ≤ sz') (h1 : o' < o + w) (h2 : o < o' + w') : o = o' := by
  obtain ⟨l, hinv⟩ := hfile
  have hpos := used_pos hinv.tiles ho
  have hpos' := used_pos hinv.tiles ho'
  by_cases hle : o ≤ o'
  · exact used_unique hinv.tiles ho ho' (b := o') ⟨hle, by omega⟩ ⟨le_rfl, by omega⟩
  · exact used_unique hinv.tiles ho ho' (b := o) ⟨le_rfl, by omega⟩ ⟨by omega, by omega⟩

/-! ### Expiration -/

/-- What expiration and the search for room leave alone. -/
structure Keeps (s s' : State) : Prop where
  registerMap : s'.registerMap = s.registerMap
  pool : s'.HoleRegPool = s.HoleRegPool
  placed : s'.placed = s.placed

theorem Keeps.refl (s : State) : Keeps s s := ⟨rfl, rfl, rfl⟩

theorem Keeps.trans {s s' s'' : State} (h : Keeps s s') (h' : Keeps s' s'') : Keeps s s'' :=
  ⟨h'.registerMap.trans h.registerMap, h'.pool.trans h.pool, h'.placed.trans h.placed⟩

/-- The registers still to expire are the last of the order, and have not been expired. -/
def Pending (P : Input) (s : State) (ending : List ℕ) : Prop :=
  ending <:+ P.ending ∧ ∀ r ∈ ending, ¬ Expired s r

/-- Everything that expiring a register can do. -/
theorem expireReg_cases {limit : ℤ} {r : ℕ} {ret : Bool}
    (he : expireReg P s limit r = some (s', ret)) :
    s' = s ∨ ∃ o sz file, s.registerMap r = some o ∧ GEN_REG_SIZE ≤ o ∧
      s.file.allocatedBlocks o = some sz ∧ s.file.deallocate o = some file ∧
      s' = { s with
        file := file
        freed := s.freed ++ [⟨r, limit, ⟨o, sz⟩, s.registerMap, s.placed⟩] } := by
  unfold expireReg at he
  split at he
  · exact .inl (Prod.mk.inj (Option.some_inj.mp he)).1.symm
  split at he
  · exact .inl (Prod.mk.inj (Option.some_inj.mp he)).1.symm
  split at he
  · cases he
  rename_i o ho
  split at he
  · exact .inl (Prod.mk.inj (Option.some_inj.mp he)).1.symm
  rename_i hlow
  obtain ⟨file, hfile, heq⟩ := Option.map_eq_some_iff.mp he
  obtain ⟨rfl, -⟩ := Prod.mk.inj heq
  obtain ⟨sz, hsz⟩ : ∃ sz, s.file.allocatedBlocks o = some sz := by
    rcases hsz : s.file.allocatedBlocks o with _ | sz
    · simp [SimpleAllocator.deallocate, hsz] at hfile
    · exact ⟨sz, rfl⟩
  rw [hsz, Option.getD_some]
  exact .inr ⟨o, sz, file, ho, not_lt.mp hlow, hsz, hfile, rfl⟩

theorem expireReg_keeps {limit : ℤ} {r : ℕ} {ret : Bool}
    (he : expireReg P s limit r = some (s', ret)) : Keeps s s' := by
  rcases expireReg_cases he with rfl | ⟨o, sz, file, -, -, -, -, rfl⟩
  · exact .refl _
  · exact ⟨rfl, rfl, rfl⟩

theorem expireLoop_keeps {limit : ℤ} : ∀ {ending : List ℕ} {s : State} {ret : Bool} {s' : State}
    {ret' : Bool}, expireLoop P limit ending s ret = some (s', ret') → Keeps s s' := by
  intro ending
  induction ending with
  | nil =>
    intro s ret s' ret' he
    obtain ⟨rfl, -⟩ := Prod.mk.inj (Option.some_inj.mp he)
    exact ⟨rfl, rfl, rfl⟩
  | cons r rest ih =>
    intro s ret s' ret' he
    simp only [expireLoop] at he
    split at he
    · exact ih he
    split at he
    · obtain ⟨rfl, -⟩ := Prod.mk.inj (Option.some_inj.mp he)
      exact ⟨rfl, rfl, rfl⟩
    split at he
    · cases he
    · rename_i s1 expired hreg
      exact (expireReg_keeps hreg).trans (ih he)

/-- The loop fails at a register whose block has been freed. -/
theorem expireLoop_none {limit o : ℤ} {g : ℕ} (hlow : GEN_REG_SIZE ≤ o)
    (hflag : P.flagBooleans g = false) (hhole : (P.intervals g).isHole = true)
    (hlive : (P.intervals g).minID ≤ (P.intervals g).maxID) (hlt : (P.intervals g).maxID < limit)
    {rest : List ℕ} (hg : g ∈ rest)
    (hsorted : rest.Pairwise fun r u => (P.intervals r).maxID ≤ (P.intervals u).maxID) {ret : Bool}
    (hmap : s.registerMap g = some o)
    (hfile : ∃ l, SimpleAllocator.Inv GEN_REG_SIZE total s.file l)
    (hnone : s.file.allocatedBlocks o = none) : expireLoop P limit rest s ret = none := by
  induction rest generalizing s ret with
  | nil => exact absurd hg List.not_mem_nil
  | cons r rest ih =>
    obtain ⟨hle, hsorted⟩ := List.pairwise_cons.mp hsorted
    simp only [expireLoop]
    by_cases hrg : r = g
    · subst hrg
      have hfail : expireReg P s limit r = none := by
        simp [expireReg, hhole, hflag, hmap, not_lt.mpr hlow, SimpleAllocator.deallocate, hnone]
      rw [if_neg (not_lt.mpr hlive), if_neg (not_le.mpr hlt), hfail]
    · have hg : g ∈ rest := (List.mem_cons.mp hg).resolve_left (Ne.symm hrg)
      split
      · exact ih hg hsorted hmap hfile hnone
      rw [if_neg (not_le.mpr ((hle g hg).trans_lt hlt))]
      rcases hreg : expireReg P s limit r with _ | ⟨s1, expired⟩
      · rfl
      rcases expireReg_cases hreg with rfl | ⟨o', sz, file, -, -, hsz, hdealloc, rfl⟩
      · exact ih hg hsorted hmap hfile hnone
      · obtain ⟨l, hinv⟩ := hfile
        obtain ⟨file', l', hdealloc', hinv', hblocks⟩ := SimpleAllocator.deallocate_spec hinv hsz
        obtain rfl : file' = file := Option.some_inj.mp (hdealloc'.symm.trans hdealloc)
        refine ih hg hsorted hmap ⟨l', hinv'⟩ ?_
        rw [show file'.allocatedBlocks = _ from hblocks, Function.update_apply]
        split_ifs
        · rfl
        · exact hnone

/-- Freeing the block of an active register whose interval is over. -/
theorem Scan.free (h : Scan P total s bound) (hP : P.WellFormed) {r : ℕ} {o sz : ℤ}
    (ho : s.registerMap r = some o) (hr : ¬ Expired s r) (hlt : (P.intervals r).maxID < bound)
    (hsz : s.file.allocatedBlocks o = some sz) {file : SimpleAllocator}
    (hfile : s.file.deallocate o = some file)
    (hearly : Early P ⟨r, bound, ⟨o, sz⟩, s.registerMap, s.placed⟩) :
    Scan P total { s with
      file := file
      freed := s.freed ++ [⟨r, bound, ⟨o, sz⟩, s.registerMap, s.placed⟩] } bound := by
  obtain ⟨l, hinv⟩ := h.file
  obtain ⟨file', l', hdealloc, hinv', hblocks⟩ := SimpleAllocator.deallocate_spec hinv hsz
  obtain rfl : file' = file := Option.some_inj.mp (hdealloc.symm.trans hfile)
  set f : Freed := ⟨r, bound, ⟨o, sz⟩, s.registerMap, s.placed⟩ with hf
  set s' : State := { s with file := file', freed := s.freed ++ [f] } with hs'
  refine ⟨⟨l', hinv'⟩, ⟨h.holes.pool, h.holes.inside⟩, h.placed, h.once, h.flags, fun f' hf' => ?_,
    fun hc => ?_⟩
  · rcases List.mem_append.mp hf' with hf' | hf'
    · exact h.early f' hf'
    · exact List.mem_singleton.mp hf' ▸ hearly
  have hown := h.owned (hc.before List.prefix_rfl fun _ hf' => List.mem_append_left _ hf')
  have hmem : f ∈ s'.freed := List.mem_append_right _ (List.mem_singleton.mpr rfl)
  have hact : Active s r o := ⟨ho, hc.expire f hmem, hr⟩
  have hexp : ∀ u, Expired s' u → Expired s u ∨ u = r := by
    rintro u ⟨f', hf', rfl⟩
    rcases List.mem_append.mp hf' with hf' | hf'
    · exact .inl ⟨f', hf', rfl⟩
    · exact .inr (by rw [List.mem_singleton.mp hf'])
  have hactive : ∀ u o', Active s' u o' → Active s u o' ∧ u ≠ r := by
    rintro u o' ⟨hu, hp, hx⟩
    refine ⟨⟨hu, hp, fun ⟨f', hf', hu⟩ => hx ⟨f', List.mem_append_left _ hf', hu⟩⟩, fun heq => ?_⟩
    exact hx ⟨f, hmem, heq.symm⟩
  refine ⟨fun u o' hu => ?_, fun u u' o' hu hu' => ?_, fun u hu => ?_, hown.roots, hown.sound.apart,
    fun f' hf' u o' hne hu h1 h2 => ?_⟩
  · obtain ⟨hold', hne⟩ := hactive u o' hu
    have hoo : o' ≠ o := fun heq => hne (hown.inj u r o (heq ▸ hold') hact)
    rw [show s'.file.allocatedBlocks = _ from hblocks, Function.update_of_ne hoo]
    exact hown.active u o' hold'
  · exact hown.inj u u' o' (hactive u o' hu).1 (hactive u' o' hu').1
  · rcases hexp u hu with hu | rfl
    · exact hown.expired u hu
    · exact hlt
  · rcases List.mem_append.mp hf' with hf' | hf'
    · exact hown.sound.freed f' hf' u o' hne hu h1 h2
    · -- whoever has bytes in the freed block shared it with the register
      obtain rfl := List.mem_singleton.mp hf'
      by_contra hge
      have hge : bound ≤ (P.intervals u).maxID := not_lt.mp hge
      obtain ⟨g, sz', hg, hsz', hw, hw', hgu⟩ := h.owner hP hown hu hge
      obtain rfl : o = o' := same_block h.file hsz hsz' le_rfl (hw.trans hw') h2 h1
      obtain rfl := hown.inj r g o hact hg
      rcases hgu with rfl | ⟨e, -, -, tag, -, rfl, hs⟩
      · exact hne rfl
      · have := hs.finish
        omega

/-- Expiring a register, when the rest of the loop does not fail. -/
theorem expireReg_scan (h : Scan P total s bound) (hP : P.WellFormed) {r : ℕ} {rest : List ℕ}
    (hr : ¬ Expired s r) (hlive : (P.intervals r).minID ≤ (P.intervals r).maxID)
    (hlt : (P.intervals r).maxID < bound) {ret ret' : Bool}
    (he : expireReg P s bound r = some (s', ret)) (hsuffix : r :: rest <:+ P.ending)
    (hrest : expireLoop P bound rest s' ret' ≠ none) :
    Scan P total s' bound ∧ ∀ u, Expired s' u → Expired s u ∨ u = r := by
  rcases expireReg_cases he with rfl | ⟨o, sz, file, ho, hlow, hsz, hfile, rfl⟩
  · exact ⟨h, fun _ hu => .inl hu⟩
  obtain ⟨l, hinv⟩ := h.file
  have hpos := used_pos hinv.tiles hsz
  refine ⟨h.free hP ho hr hlt hsz hfile ⟨hpos, ?_⟩, ?_⟩
  · rintro e he rfl
    obtain ⟨tag, o', htag, hs⟩ := h.shares hP he
    obtain rfl := Option.some_inj.mp (ho.symm.trans hs.map)
    have hne : tag.reg ≠ e.reg := fun heq => by
      have := hs.start
      rw [heq] at this
      omega
    refine ⟨tag, htag, hne, hs.owner, ?_⟩
    by_contra hover
    have hover := not_le.mp hover
    obtain ⟨hnum, hhole⟩ := hP.owner e.blockID tag (List.mem_of_getElem? htag)
    -- the owner comes later in the order, but its block is gone then
    have hg : tag.reg ∈ rest := by
      obtain ⟨pre, hpre⟩ := hsuffix
      have hmem := (hP.ending tag.reg).mpr hnum
      have hsorted := hP.ending_sorted
      rw [← hpre] at hmem hsorted
      rcases List.mem_append.mp hmem with hmem | hmem
      · have := (List.pairwise_append.mp hsorted).2.2 _ hmem _ List.mem_cons_self
        have := hs.finish
        omega
      · exact (List.mem_cons.mp hmem).resolve_left hne
    obtain ⟨file', l', hdealloc', hinv', hblocks⟩ := SimpleAllocator.deallocate_spec hinv hsz
    obtain rfl : file' = file := Option.some_inj.mp (hdealloc'.symm.trans hfile)
    have hstart := hs.start
    have hfinish := hs.finish
    refine hrest (expireLoop_none hlow (h.flags _ ?_) hhole (by omega) hover hg
      (hP.ending_sorted.sublist hsuffix.sublist).of_cons hs.owner ⟨l', hinv'⟩ ?_)
    · rw [hs.owner]
      rfl
    · rw [show file'.allocatedBlocks = _ from hblocks, Function.update_self]
  · rintro u ⟨f, hf, rfl⟩
    rcases List.mem_append.mp hf with hf | hf
    · exact .inl ⟨f, hf, rfl⟩
    · exact .inr (by rw [List.mem_singleton.mp hf])

/-- Expiration keeps the invariant. -/
theorem expireLoop_scan (hP : P.WellFormed) {limit : ℤ} : ∀ {ending : List ℕ} {s : State}
    {ret : Bool} {s' : State} {ret' : Bool}, Scan P total s limit → Pending P s ending →
      expireLoop P limit ending s ret = some (s', ret') →
        Scan P total s' limit ∧ Pending P s' s'.ending := by
  intro ending
  induction ending with
  | nil =>
    intro s ret s' ret' h hp he
    obtain ⟨rfl, -⟩ := Prod.mk.inj (Option.some_inj.mp he)
    exact ⟨h.congr rfl rfl ⟨h.holes.pool, h.holes.inside⟩ rfl rfl, hp⟩
  | cons r rest ih =>
    intro s ret s' ret' h hp he
    have hrest : Pending P s rest :=
      ⟨(List.suffix_cons r rest).trans hp.1, fun u hu => hp.2 u (List.mem_cons_of_mem _ hu)⟩
    simp only [expireLoop] at he
    split at he
    · exact ih h hrest he
    rename_i hlive
    split at he
    · obtain ⟨rfl, -⟩ := Prod.mk.inj (Option.some_inj.mp he)
      exact ⟨h.congr rfl rfl ⟨h.holes.pool, h.holes.inside⟩ rfl rfl, hp⟩
    rename_i hlt
    split at he
    · cases he
    · rename_i s1 expired hreg
      obtain ⟨h1, hx⟩ := expireReg_scan h hP (hp.2 r List.mem_cons_self) (not_lt.mp hlive)
        (not_le.mp hlt) hreg hp.1 (by rw [he]; exact Option.some_ne_none _)
      refine ih h1 ⟨hrest.1, fun u hu hxu => ?_⟩ he
      rcases hx u hxu with hxu | rfl
      · exact hrest.2 u hu hxu
      · exact (List.nodup_cons.mp (hP.ending_nodup.sublist hp.1.sublist)).1 hu

/-! ### Allocation of a block -/

/-- A new block changes nothing for the registers that own one. -/
theorem Scan.allocate (h : Scan P total s bound) {size alignment o : ℤ} {direction : Bool}
    {file : SimpleAllocator} (hsize : 0 < size) (halign : 0 < alignment) (ho : o ≠ -1)
    (he : s.file.allocate size alignment direction = some (file, o)) :
    Scan P total { s with file := file } bound ∧ file.allocatedBlocks o = some size ∧
      (StepsMeet P s → ∀ r, ¬ Active s r o) := by
  obtain ⟨l, hinv⟩ := h.file
  rcases SimpleAllocator.allocate_spec hinv hsize halign direction with
    ⟨hnone, -⟩ | ⟨file', l', o', hsome, hinv', hfresh, hblocks, -⟩
  · rw [hnone] at he
    exact absurd (Prod.mk.inj (Option.some_inj.mp he)).2.symm ho
  · rw [hsome] at he
    obtain ⟨rfl, rfl⟩ := Prod.mk.inj (Option.some_inj.mp he)
    have hne : StepsMeet P s → ∀ r o, Active s r o → o ≠ o' := by
      rintro hc r o hr rfl
      obtain ⟨sz, hsz, -⟩ := (h.owned hc).active r o hr
      exact absurd (hfresh.symm.trans hsz) (by simp)
    refine ⟨⟨⟨l', hinv'⟩, ⟨h.holes.pool, h.holes.inside⟩, h.placed, h.once, h.flags, h.early,
      fun hc => ?_⟩, by rw [hblocks, Function.update_self], fun hc r hr => hne hc r o' hr rfl⟩
    have hc : StepsMeet P s := ⟨hc.expire, hc.put⟩
    obtain ⟨hactive, hinj, hexpired, hroots, hsound⟩ := h.owned hc
    refine ⟨fun r o hr => ?_, hinj, hexpired, hroots, hsound.apart, hsound.freed⟩
    rw [show ({ s with file := file' } : State).file.allocatedBlocks = _ from hblocks,
      Function.update_of_ne (hne hc r o hr)]
    exact hactive r o hr

theorem allocateLoop_keeps {limit size alignment : ℤ} {direction : Bool} : ∀ {n : ℕ} {s s' : State}
    {o : ℤ}, allocateLoop P limit size alignment direction n s = some (s', o) → Keeps s s' := by
  intro n
  induction n with
  | zero => exact fun he => absurd he (by simp [allocateLoop])
  | succ n ih =>
    intro s s' o he
    simp only [allocateLoop] at he
    split at he
    · cases he
    · rename_i file grfOffset hfile
      split at he
      · split at he
        · rename_i s1 hexp
          have hk := (expireLoop_keeps hexp).trans (ih he)
          exact ⟨hk.registerMap, hk.pool, hk.placed⟩
        · cases he
      · obtain ⟨rfl, -⟩ := Prod.mk.inj (Option.some_inj.mp he)
        exact ⟨rfl, rfl, rfl⟩

/-- The block that `allocateReg` answers with is new. -/
structure Fresh (P : Input) (total : ℤ) (s : State) (bound o size : ℤ) : Prop where
  scan : Scan P total s bound
  pending : Pending P s s.ending
  block : s.file.allocatedBlocks o = some size
  unowned : StepsMeet P s → ∀ r, ¬ Active s r o

theorem allocateLoop_fresh (hP : P.WellFormed) {limit size alignment : ℤ} {direction : Bool}
    (hsize : 0 < size) (halign : 0 < alignment) : ∀ {n : ℕ} {s s' : State} {o : ℤ},
      Scan P total s limit → Pending P s s.ending →
      allocateLoop P limit size alignment direction n s = some (s', o) →
        Fresh P total s' limit o size := by
  intro n
  induction n with
  | zero => exact fun _ _ he => absurd he (by simp [allocateLoop])
  | succ n ih =>
    intro s s' o h hp he
    simp only [allocateLoop] at he
    split at he
    · cases he
    · rename_i file grfOffset hfile
      split at he
      · rename_i hfull
        split at he
        · rename_i s1 hexp
          -- nothing was allocated, so the file is the one before the search
          have hsame : file = s.file := by
            obtain ⟨l, hinv⟩ := h.file
            rcases SimpleAllocator.allocate_spec hinv hsize halign direction with
              ⟨hnone, -⟩ | ⟨file', l', o', hsome, -, -, -, hlow, -⟩
            · rw [hnone] at hfile
              exact (Prod.mk.inj (Option.some_inj.mp hfile)).1.symm
            · rw [hsome] at hfile
              obtain ⟨-, rfl⟩ := Prod.mk.inj (Option.some_inj.mp hfile)
              rw [hfull] at hlow
              exact absurd hlow (by decide)
          subst hsame
          have h0 := h.congr rfl rfl ⟨h.holes.pool, h.holes.inside⟩ rfl rfl
          obtain ⟨h1, hp1⟩ := expireLoop_scan hP h0 hp hexp
          exact ih h1 hp1 he
        · cases he
      · rename_i hfound
        obtain ⟨rfl, rfl⟩ := Prod.mk.inj (Option.some_inj.mp he)
        obtain ⟨h1, hblock, hunowned⟩ := h.allocate hsize halign hfound hfile
        exact ⟨h1, hp, hblock, fun hc => hunowned ⟨hc.expire, hc.put⟩⟩

theorem alignUp_pos {k : ℕ} {x : ℤ} (hx : 0 < x) : 0 < alignUp k x := by
  have hpow : (0 : ℤ) < 2 ^ k := by positivity
  have hquot : 0 < (x + 2 ^ k - 1) / 2 ^ k := by
    have := Int.ediv_le_ediv hpow (show (2 : ℤ) ^ k ≤ x + 2 ^ k - 1 by omega)
    rw [Int.ediv_self hpow.ne'] at this
    omega
  exact mul_pos hquot hpow

theorem allocateReg_keeps {reg : ℕ} {size alignment o : ℤ}
    (he : allocateReg P s reg size alignment = some (s', o)) : Keeps s s' := by
  simp only [allocateReg] at he
  obtain ⟨s1, hs1, he⟩ := Option.bind_eq_some_iff.mp he
  have hk1 : Keeps s s1 := by
    split at hs1
    · obtain ⟨⟨s2, ret⟩, hexp, rfl⟩ := Option.map_eq_some_iff.mp hs1
      exact expireLoop_keeps hexp
    · obtain rfl := Option.some_inj.mp hs1
      exact .refl s
  have hk := allocateLoop_keeps he
  exact hk1.trans ⟨hk.registerMap, hk.pool, hk.placed⟩

/-- **`allocateReg`** answers with a new block, whatever it had to expire. -/
theorem allocateReg_fresh (hP : P.WellFormed) {reg : ℕ} {size alignment o : ℤ} (hsize : 0 < size)
    (halign : 0 < alignment) (h : Scan P total s (P.intervals reg).minID)
    (hp : Pending P s s.ending) (he : allocateReg P s reg size alignment = some (s', o)) :
    Fresh P total s' (P.intervals reg).minID o size := by
  simp only [allocateReg] at he
  obtain ⟨s1, hs1, he⟩ := Option.bind_eq_some_iff.mp he
  obtain ⟨h1, hp1⟩ : Scan P total s1 (P.intervals reg).minID ∧ Pending P s1 s1.ending := by
    split at hs1
    · obtain ⟨⟨s2, ret⟩, hexp, rfl⟩ := Option.map_eq_some_iff.mp hs1
      exact expireLoop_scan hP h hp hexp
    · obtain rfl := Option.some_inj.mp hs1
      exact ⟨h, hp⟩
  have h2 : Scan P total { s1 with regSpillTick := s1.regSpillTick + 1 }
      (P.intervals reg).minID := h1.congr rfl rfl ⟨h1.holes.pool, h1.holes.inside⟩ rfl rfl
  refine allocateLoop_fresh hP hsize ?_ h2 hp1 he
  split
  · exact alignUp_pos (alignUp_pos halign)
  · exact alignUp_pos halign

/-! ### New registers -/

/-- A new register keeps apart from the others, and nothing else changes. -/
theorem NonInterference.insert (h : NonInterference P s) {u : ℕ} {o : ℤ}
    (hmap : s'.registerMap = Function.update s.registerMap u (some o))
    (hplaced : ∀ e ∈ s.placed, e ∈ s'.placed) (hfreed : s'.freed = s.freed)
    (hnew : ∀ r o' p, r ≠ u → s.registerMap r = some o' → Live P r p → Live P u p →
      ¬ InHole P s' r u p → o' + P.width r ≤ o ∨ o + P.width u ≤ o') : NonInterference P s' := by
  have hself : s'.registerMap u = some o := by rw [hmap, Function.update_self]
  have hother : ∀ r, r ≠ u → s'.registerMap r = s.registerMap r := fun r hr => by
    rw [hmap, Function.update_of_ne hr]
  have hholes : ∀ g r p, ¬ InHole P s' g r p → ¬ InHole P s g r p :=
    fun g r p hnot ⟨t, ⟨e, he, ht⟩, hin⟩ => hnot ⟨t, ⟨e, hplaced e he, ht⟩, hin⟩
  refine ⟨fun r v o1 o2 p hne hr hv hlr hlv h1 h2 => ?_, hfreed ▸ h.freed⟩
  by_cases hru : r = u
  · subst hru
    obtain rfl := Option.some_inj.mp (hr.symm.trans hself)
    rw [hother v hne.symm] at hv
    exact (hnew v o2 p hne.symm hv hlv hlr h2).symm
  · rw [hother r hru] at hr
    by_cases hvu : v = u
    · subst hvu
      obtain rfl := Option.some_inj.mp (hv.symm.trans hself)
      exact hnew r o1 p hru hr hlr hlv h1
    · rw [hother v hvu] at hv
      exact h.apart r v o1 o2 p hne hr hv hlr hlv (hholes _ _ _ h1) (hholes _ _ _ h2)

/-- A register gets a block that no active register owns. -/
theorem Scan.insert (h : Scan P total s bound) (hP : P.WellFormed) {u : ℕ} {o sz : ℤ}
    {file : SimpleAllocator} (hu : s.registerMap u = none) (hflag : P.flagBooleans u = false)
    (hstart : (P.intervals u).minID ≤ (P.intervals u).maxID → bound ≤ (P.intervals u).minID)
    (hfile : ∃ l, SimpleAllocator.Inv GEN_REG_SIZE total file l)
    (hblock : file.allocatedBlocks o = some sz) (hwidth : P.width u ≤ sz)
    (howners : StepsMeet P s → (∀ r, ¬ Active s r o) ∧ ∀ r o', Active s r o' →
      ∃ sz', file.allocatedBlocks o' = some sz' ∧ P.width r ≤ sz') :
    Scan P total { insertNewReg s u o with file := file } bound := by
  set s' : State := { insertNewReg s u o with file := file } with hs'
  have hself : s'.registerMap u = some o := Function.update_self ..
  have hmap : ∀ r, r ≠ u → s'.registerMap r = s.registerMap r := fun r hr =>
    Function.update_of_ne hr _ _
  have hmapped : ∀ r o', s.registerMap r = some o' → r ≠ u := by
    rintro r o' hr rfl
    exact absurd (hu.symm.trans hr) (by simp)
  refine ⟨hfile, ⟨h.holes.pool, h.holes.inside⟩, fun e he => ?_, h.once, fun r hr => ?_, h.early,
    fun hc => ?_⟩
  · obtain ⟨tag, o', htag, ho', hown, hrest⟩ := h.placed e he
    exact ⟨tag, o', htag, (hmap _ (hmapped _ _ ho')).trans ho',
      (hmap _ (hmapped _ _ hown)).trans hown, hrest⟩
  · by_cases hru : r = u
    · exact hru ▸ hflag
    · rw [hmap r hru] at hr
      exact h.flags r hr
  have hc : StepsMeet P s := ⟨hc.expire, hc.put⟩
  have hown := h.owned hc
  obtain ⟨hunowned, hkept⟩ := howners hc
  have hactive : ∀ r o', r ≠ u → Active s' r o' → Active s r o' := fun r o' hr ha =>
    ⟨hmap r hr ▸ ha.1, ha.2.1, ha.2.2⟩
  have hnew : ∀ o', Active s' u o' → o' = o := fun o' ha =>
    Option.some_inj.mp (ha.1.symm.trans hself)
  refine ⟨fun r o' hr => ?_, fun r r' o' hr hr' => ?_, hown.expired, hown.roots,
    hown.sound.insert rfl (fun _ he => he) rfl fun r o' p hne hr hlr hlu _ => ?_⟩
  · by_cases hru : r = u
    · subst hru
      exact ⟨sz, hnew o' hr ▸ hblock, hwidth⟩
    · exact hkept r o' (hactive r o' hru hr)
  · by_cases hru : r = u
    · by_cases hru' : r' = u
      · exact hru.trans hru'.symm
      · subst hru
        exact absurd (hnew o' hr ▸ hactive r' o' hru' hr') (hunowned r')
    · by_cases hru' : r' = u
      · subst hru'
        exact absurd (hnew o' hr' ▸ hactive r o' hru hr) (hunowned r)
      · exact hown.inj r r' o' (hactive r o' hru hr) (hactive r' o' hru' hr')
  · -- a register that is live together with the new one has its bytes in another block
    by_contra hnot
    push Not at hnot
    have hle := hstart (hlu.1.trans hlu.2)
    obtain ⟨g, -, hg, -, hw, -⟩ := h.owner hP hown hr (hle.trans (hlu.1.trans hlr.2))
    obtain ⟨sz', hsz', hw'⟩ := hkept g o' hg
    obtain rfl := same_block hfile hsz' hblock (hw.trans hw') hwidth hnot.1 hnot.2
    exact hunowned g hg

/-- A register is put into a hole. -/
theorem Scan.place (h : Scan P total s bound) (hP : P.WellFormed) {u i : ℕ} {b o : ℤ}
    {tag : HoleRegTag} (hu : s.registerMap u = none) (hflag : P.flagBooleans u = false)
    (hlive : (P.intervals u).minID ≤ (P.intervals u).maxID)
    (hbound : bound ≤ (P.intervals u).minID) (htag : (P.holes b)[i]? = some tag)
    (hin : Inside P ⟨u, b, i⟩ tag) (hwidth : P.width u ≤ P.width tag.reg)
    (hown : s.registerMap tag.reg = some o)
    (hmap : s'.registerMap = Function.update s.registerMap u (some o))
    (hfile : s'.file = s.file) (hfreed : s'.freed = s.freed)
    (hplaced : s'.placed = s.placed ++ [⟨u, b, i⟩]) (hholes : Holes P s') :
    Scan P total s' bound := by
  have hother : ∀ r, r ≠ u → s'.registerMap r = s.registerMap r := fun r hr => by
    rw [hmap, Function.update_of_ne hr]
  have hmapped : ∀ r o', s.registerMap r = some o' → r ≠ u := by
    rintro r o' hr rfl
    exact absurd (hu.symm.trans hr) (by simp)
  have hcases : ∀ e ∈ s'.placed, e ∈ s.placed ∨ e = ⟨u, b, i⟩ := fun e he => by
    rwa [hplaced, List.mem_append, List.mem_singleton] at he
  have hmem : ∀ e, e ∈ s.placed ∨ e = ⟨u, b, i⟩ → e ∈ s'.placed := fun e he => by
    rwa [hplaced, List.mem_append, List.mem_singleton]
  refine ⟨hfile ▸ h.file, hholes, fun e he => ?_, ?_, fun r hr => ?_, hfreed ▸ h.early,
    fun hc => ?_⟩
  · rcases hcases e he with he | rfl
    · obtain ⟨tag1, o', htag1, ho', hown1, hrest⟩ := h.placed e he
      exact ⟨tag1, o', htag1, (hother _ (hmapped _ _ ho')).trans ho',
        (hother _ (hmapped _ _ hown1)).trans hown1, hrest⟩
    · exact ⟨tag, o, htag, by rw [hmap, Function.update_self],
        (hother _ (hmapped _ _ hown)).trans hown, hwidth, hlive⟩
  · rw [hplaced, List.pairwise_append]
    refine ⟨h.once, List.pairwise_singleton _ _, fun e he e' he' => ?_⟩
    obtain ⟨-, o', -, ho', -⟩ := h.placed e he
    rw [List.mem_singleton.mp he']
    exact hmapped _ _ ho'
  · by_cases hru : r = u
    · exact hru ▸ hflag
    · rw [hother r hru] at hr
      exact h.flags r hr
  obtain ⟨hput, -, hlast⟩ := List.pairwise_append.mp (hplaced ▸ hc.put)
  have hs := h.owned ⟨fun f hf => hc.expire f (hfreed ▸ hf), hput⟩
  have hmeet := fun e he => hlast e he ⟨u, b, i⟩ (List.mem_singleton.mpr rfl) tag htag
  have hexp : ∀ r, Expired s' r ↔ Expired s r := fun r => by
    unfold Expired
    rw [hfreed]
  have hactive : ∀ r o', Active s' r o' → Active s r o' := by
    rintro r o' ⟨hr, hp, hx⟩
    have hru : r ≠ u := fun heq => hp _ (hmem _ (.inr rfl)) heq.symm
    exact ⟨hother r hru ▸ hr, fun e he => hp e (hmem e (.inl he)),
      fun hx' => hx ((hexp r).mpr hx')⟩
  -- the owner of the hole still owns its block
  have howner : Active s tag.reg o := by
    refine ⟨hown, fun e he => (hmeet e he).1, fun hx => ?_⟩
    have := hs.expired _ hx
    have := (hP.hole b tag (List.mem_of_getElem? htag)).2.1
    have : (P.intervals u).maxID ≤ tag.endID := hin.2
    omega
  obtain ⟨szo, hszo, hwo⟩ := hs.active _ _ howner
  refine ⟨fun r o' hr => hfile ▸ hs.active r o' (hactive r o' hr),
    fun r r' o' hr hr' => hs.inj r r' o' (hactive r o' hr) (hactive r' o' hr'),
    fun r hr => hs.expired r ((hexp r).mp hr), fun e he t ht e' he' => ?_,
    hs.sound.insert hmap (fun e he => hmem e (.inl he)) hfreed
      fun r o' p hne hr hlr hlu hnot => ?_⟩
  · -- the owner of a hole in use is mapped before, and the new register is not
    rcases hcases e he with he | rfl
    · rcases hcases e' he' with he' | rfl
      · exact hs.roots e he t ht e' he'
      · obtain ⟨t', o', ht', -, hown', -⟩ := h.placed e he
        obtain rfl := Option.some_inj.mp (ht'.symm.trans ht)
        exact (hmapped _ _ hown').symm
    · obtain rfl : tag = t := Option.some_inj.mp (htag.symm.trans ht)
      rcases hcases e' he' with he' | rfl
      · exact (hmeet e' he').1
      · exact (hmapped _ _ hown).symm
  · by_contra hover
    push Not at hover
    obtain ⟨g, sz, hg, hsz, hw, hw', hgr⟩ := h.owner hP hs hr (hbound.trans (hlu.1.trans hlr.2))
    obtain rfl := same_block h.file hsz hszo (hw.trans hw') (hwidth.trans hwo) hover.1 hover.2
    obtain rfl := hs.inj g tag.reg o' hg howner
    rcases hgr with hgr | ⟨e, he, rfl, tag1, htag1, hreg1, -⟩
    · exact hnot ⟨tag, ⟨_, hmem _ (.inr rfl), rfl, htag⟩, hgr, hin.1.trans hlu.1,
        hlu.2.trans hin.2⟩
    · -- the other register was put into a hole of the same owner
      exact (hmeet e he).2 tag1 htag1 hreg1 p hlr hlu

/-! ### One round of the scan -/

theorem reuseHole_scan (hP : P.WellFormed) (hnear : P.Near) {u : ℕ}
    (h : Scan P total s (P.intervals u).minID) (hu : s.registerMap u = none)
    (hflag : P.flagBooleans u = false) (hused : (P.intervals u).maxID ≠ -INT_MAX)
    (hwidth : P.width u = P.regSize u) : Scan P total (reuseHole P s u) (P.intervals u).minID := by
  have hholes := h.holes.reuseHole hnear fun hb => hP.inBlock u hb hused
  rcases reuseHole_cases P s u with
    heq | ⟨i, tag', hb, hpool, hsize, hfit, -, hfile, hfreed, -, hmap⟩
  · rwa [heq]
  · obtain ⟨tag, htag, hreg, hsize', hend, hlow, -⟩ := h.holes.pool _ _ _ hpool
    obtain ⟨hstart, hmax⟩ := h.holes.fits hnear hpool hfit
    have hw : P.width u ≤ P.width tag.reg := by
      rw [hwidth, ← hsize, hsize']
      exact (hP.hole _ tag (List.mem_of_getElem? htag)).2.2
    rcases hmap with ⟨hmap, hplaced⟩ | ⟨o, hown, hmap, hplaced⟩
    · exact h.congr hfile hmap hholes hplaced hfreed
    · rw [hreg] at hown
      exact h.place hP hu hflag (hP.inBlock u hb hused) le_rfl htag
        ⟨hlow.trans hstart, hmax.trans_eq hend⟩ hw hown hmap hfile hfreed hplaced hholes

/-- A mapped register stays mapped. -/
def Extends (s s' : State) : Prop :=
  ∀ r, (s.registerMap r).isSome → (s'.registerMap r).isSome

theorem Extends.none (h : Extends s s') {r : ℕ} (hr : s'.registerMap r = none) :
    s.registerMap r = none := by
  by_contra hsome
  have := h r (Option.isSome_iff_ne_none.mpr hsome)
  rw [hr] at this
  cases this

theorem Extends.insert {s : State} {u : ℕ} {o : ℤ} : Extends s (insertNewReg s u o) := by
  intro r hr
  by_cases h : r = u
  · subst h
    simp [insertNewReg]
  · simpa [insertNewReg, h] using hr

theorem reuseHole_extends (P : Input) (s : State) (u : ℕ) : Extends s (reuseHole P s u) := by
  rcases reuseHole_cases P s u with h | ⟨i, tag', -, -, -, -, -, -, -, -, hmap⟩
  · rw [h]
    exact fun _ hr => hr
  · rcases hmap with ⟨hmap, -⟩ | ⟨o, -, hmap, -⟩
    · unfold Extends
      rw [hmap]
      exact fun _ hr => hr
    · unfold Extends
      rw [hmap]
      exact Extends.insert

theorem createGenReg_extends {u : ℕ} (he : createGenReg P s u = some s') :
    Extends s s' ∧ (s'.registerMap u).isSome := by
  simp only [createGenReg] at he
  split at he
  · rename_i hu
    obtain rfl := Option.some_inj.mp he
    exact ⟨reuseHole_extends P s u, hu⟩
  · obtain ⟨⟨s1, o⟩, hs1, he⟩ := Option.bind_eq_some_iff.mp he
    simp only at he
    split at he
    · cases he
    · obtain rfl := Option.some_inj.mp he
      have hk := (allocateReg_keeps hs1).registerMap
      refine ⟨fun r hr => Extends.insert r ?_, by simp [insertNewReg]⟩
      rw [hk]
      exact reuseHole_extends P s u r hr

theorem createGenReg_scan (hP : P.WellFormed) (hnear : P.Near) {u : ℕ}
    (h : Scan P total s (P.intervals u).minID) (hp : Pending P s s.ending)
    (hu : s.registerMap u = none) (hflag : P.flagBooleans u = false)
    (hused : (P.intervals u).maxID ≠ -INT_MAX) (hwidth : P.width u = P.regSize u)
    (he : createGenReg P s u = some s') :
    Scan P total s' (P.intervals u).minID ∧ Pending P s' s'.ending := by
  simp only [createGenReg] at he
  have h1 := reuseHole_scan hP hnear h hu hflag hused hwidth
  have hp1 : Pending P (reuseHole P s u) (reuseHole P s u).ending := by
    rcases reuseHole_cases P s u with heq | ⟨i, tag', -, -, -, -, -, -, hfreed, hending, -⟩
    · rwa [heq]
    · unfold Pending Expired
      rw [hending, hfreed]
      exact hp
  split at he
  · obtain rfl := Option.some_inj.mp he
    exact ⟨h1, hp1⟩
  · rename_i hnot
    obtain ⟨⟨s1, o⟩, hs1, he⟩ := Option.bind_eq_some_iff.mp he
    simp only at he
    split at he
    · cases he
    · obtain rfl := Option.some_inj.mp he
      have hf := allocateReg_fresh hP (hP.regSize_pos u) (hP.regSize_pos u) h1 hp1 hs1
      have hu1 : s1.registerMap u = none := by
        rw [(allocateReg_keeps hs1).registerMap]
        simpa using hnot
      refine ⟨?_, hf.pending⟩
      exact hf.scan.insert hP hu1 hflag (fun _ => le_rfl) hf.scan.file hf.block hwidth.le
        fun hc => ⟨hf.unowned hc, (hf.scan.owned hc).active⟩

/-! ### Vectors -/

theorem placeVector_extends {o : ℤ} : ∀ {regs : List ℕ} {sub : ℤ} {s s' : State},
    placeVector P o regs sub s = some s' →
      Extends s s' ∧ ∀ u ∈ regs, s.registerMap u = none ∧ (s'.registerMap u).isSome := by
  intro regs
  induction regs with
  | nil =>
    intro sub s s' he
    obtain rfl := Option.some_inj.mp he
    exact ⟨fun _ hr => hr, by simp⟩
  | cons u regs ih =>
    intro sub s s' he
    simp only [placeVector] at he
    split at he
    · cases he
    rename_i hu
    split at he
    · cases he
    obtain ⟨file, -, he⟩ := Option.bind_eq_some_iff.mp he
    obtain ⟨hext, hall⟩ := ih he
    refine ⟨fun r hr => hext r (Extends.insert r hr), fun r hr => ?_⟩
    rcases List.mem_cons.mp hr with rfl | hr
    · exact ⟨by simpa using hu, hext r (by simp [insertNewReg])⟩
    · exact ⟨Extends.insert.none (hall r hr).1, (hall r hr).2⟩

theorem sum_regSize_nonneg (hP : P.WellFormed) (v : List ℕ) : 0 ≤ (v.map P.regSize).sum := by
  refine List.sum_nonneg fun x hx => ?_
  obtain ⟨r, -, rfl⟩ := List.mem_map.mp hx
  exact (hP.regSize_pos r).le

/-- The block of a vector while its registers are placed: `p` is the start of the last
piece, which reaches to the end of the block; all registers before `sub` have theirs. -/
structure Carving (P : Input) (s : State) (o size sub p : ℤ) : Prop where
  given : SimpleAllocator.GivenOut s.file.allocatedBlocks o size
  last : s.file.allocatedBlocks p = some (o + size - p)
  first : sub = 0 → p = o
  next : 0 < sub → p < o + sub
  owners : StepsMeet P s → (sub = 0 → ∀ r, ¬ Active s r o) ∧
    (0 < sub → ∀ r, Active s r p → P.width r ≤ o + sub - p)

/-- The next register of a vector gets the rest of the block, cut off from the piece
before it. -/
theorem Carving.step (hP : P.WellFormed) {u : ℕ} {o size sub p : ℤ} {file : SimpleAllocator}
    (h : Scan P total s bound) (hcarve : Carving P s o size sub p)
    (hsub : 0 ≤ sub) (hfits : sub + P.regSize u ≤ size) (hu : s.registerMap u = none)
    (hflag : P.flagBooleans u = false) (hwidth : P.width u = P.regSize u)
    (hstart : (P.intervals u).minID ≤ (P.intervals u).maxID → bound ≤ (P.intervals u).minID)
    (he : s.file.splitBlock o sub = some file) :
    Scan P total { insertNewReg s u (o + sub) with file := file } bound ∧
      Carving P { insertNewReg s u (o + sub) with file := file } o size (sub + P.regSize u)
        (o + sub) := by
  obtain ⟨l, hinv⟩ := h.file
  have hpos := hP.regSize_pos u
  obtain ⟨hinv', hgiven'⟩ :=
    SimpleAllocator.splitBlock_givenOut hinv hcarve.given hsub (by omega) he
  obtain ⟨file', he', -, hcut⟩ := SimpleAllocator.splitBlock_spec hinv hcarve.given.starts hsub
    fun b hlo hhi => hcarve.given.tracked b hlo (by omega)
  obtain rfl : file' = file := Option.some_inj.mp (he'.symm.trans he)
  -- the new block, that nobody owns it, and the blocks of the registers before
  obtain ⟨hblock, howners⟩ : file'.allocatedBlocks (o + sub) = some (size - sub) ∧
      (StepsMeet P s → (∀ r, ¬ Active s r (o + sub)) ∧ ∀ r o', Active s r o' →
        ∃ sz', file'.allocatedBlocks o' = some sz' ∧ P.width r ≤ sz') := by
    rcases hsub.eq_or_lt with rfl | hsub
    · obtain rfl := hcarve.first rfl
      rcases hcut with ⟨rfl, -⟩ | ⟨o', t, sz, ho', ht, htsz, heq, -⟩
      · refine ⟨?_, fun hc => ⟨?_, (h.owned hc).active⟩⟩
        · rw [add_zero, hcarve.last]
          congr 1
          omega
        · simpa using (hcarve.owners hc).1 rfl
      · have := not_tracked_inside hinv.tiles ho' (b := p) (by omega) (by omega)
        exact absurd (this.symm.trans hcarve.last) (by simp)
    · have hlt := hcarve.next hsub
      have hnone := not_tracked_inside hinv.tiles hcarve.last (b := o + sub) hlt (by omega)
      rcases hcut with ⟨-, hsome⟩ | ⟨o', t, sz, ho', ht, htsz, heq, hblocks⟩
      · rw [hnone] at hsome
        cases hsome
      obtain rfl := used_unique hinv.tiles hcarve.last ho' (b := o + sub)
        ⟨hlt.le, by omega⟩ ⟨by omega, by omega⟩
      have hsz : sz = o + size - p := Option.some_inj.mp (ho'.symm.trans hcarve.last)
      rw [heq] at hblocks
      refine ⟨?_, fun hc => ?_⟩
      · rw [hblocks, Function.update_self]
        congr 1
        omega
      have hne : ∀ r o', Active s r o' → o' ≠ o + sub := by
        rintro r o' hr rfl
        obtain ⟨sz, hsz, -⟩ := (h.owned hc).active r _ hr
        exact absurd (hnone.symm.trans hsz) (by simp)
      refine ⟨fun r hr => hne r _ hr rfl, fun r o' hr => ?_⟩
      rw [hblocks, Function.update_of_ne (hne r o' hr)]
      by_cases hop : o' = p
      · subst hop
        exact ⟨t, by simp, ((hcarve.owners hc).2 hsub r hr).trans (by omega)⟩
      · rw [Function.update_of_ne hop]
        exact (h.owned hc).active r o' hr
  have hscan : Scan P total { insertNewReg s u (o + sub) with file := file' } bound :=
    h.insert hP hu hflag hstart ⟨l, hinv'⟩ hblock (by omega) howners
  refine ⟨hscan, hgiven', ?_, fun h0 => by omega, fun _ => by omega,
    fun hc => ⟨fun h0 => by omega, fun _ r hr => ?_⟩⟩
  · rw [show ({ insertNewReg s u (o + sub) with file := file' } : State).file.allocatedBlocks
      (o + sub) = _ from hblock]
    congr 1
    omega
  · have hru : r = u := by
      by_contra hne
      refine (howners ⟨hc.expire, hc.put⟩).1 r ⟨?_, hr.2.1, hr.2.2⟩
      have hmap : Function.update s.registerMap u (some (o + sub)) r = some (o + sub) := hr.1
      rwa [Function.update_of_ne hne] at hmap
    rw [hru, hwidth]
    omega

theorem placeVector_scan (hP : P.WellFormed) {o size : ℤ} : ∀ {regs : List ℕ} {sub p : ℤ}
    {s s' : State}, Scan P total s bound → Pending P s s.ending → Carving P s o size sub p →
      0 ≤ sub → sub + (regs.map P.regSize).sum = size →
      (∀ u ∈ regs, P.flagBooleans u = false ∧ P.width u = P.regSize u ∧
        ((P.intervals u).minID ≤ (P.intervals u).maxID → bound ≤ (P.intervals u).minID)) →
      placeVector P o regs sub s = some s' →
        Scan P total s' bound ∧ Pending P s' s'.ending := by
  intro regs
  induction regs with
  | nil =>
    intro sub p s s' h hp _ _ _ _ he
    obtain rfl := Option.some_inj.mp he
    exact ⟨h, hp⟩
  | cons u regs ih =>
    intro sub p s s' h hp hcarve hsub hsum hregs he
    simp only [placeVector] at he
    split at he
    · cases he
    rename_i hu
    split at he
    · cases he
    obtain ⟨file, hfile, he⟩ := Option.bind_eq_some_iff.mp he
    obtain ⟨hflag, hwidth, hstart⟩ := hregs u List.mem_cons_self
    have hpos := hP.regSize_pos u
    have hrest := sum_regSize_nonneg hP regs
    rw [List.map_cons, List.sum_cons] at hsum
    obtain ⟨h1, hcarve1⟩ := hcarve.step hP h hsub (by omega) (by simpa using hu) hflag hwidth
      hstart hfile
    exact ih h1 hp hcarve1 (by omega) (by omega)
      (fun r hr => hregs r (List.mem_cons_of_mem _ hr)) he

theorem allocateVector_scan (hP : P.WellFormed) {u : ℕ} {v : List ℕ}
    (h : Scan P total s (P.intervals u).minID) (hp : Pending P s s.ending) (hv : v ≠ [])
    (hregs : ∀ r ∈ v, P.flagBooleans r = false ∧ P.width r = P.regSize r ∧
      ((P.intervals r).minID ≤ (P.intervals r).maxID →
        (P.intervals u).minID ≤ (P.intervals r).minID))
    (he : allocateVector P s u v = some s') :
    Scan P total s' (P.intervals u).minID ∧ Pending P s' s'.ending := by
  simp only [allocateVector] at he
  obtain ⟨⟨s1, o⟩, hs1, he⟩ := Option.bind_eq_some_iff.mp he
  simp only at he
  split at he
  · cases he
  have hsize : 0 < (v.map P.regSize).sum := by
    obtain ⟨r, v, rfl⟩ := List.exists_cons_of_ne_nil hv
    rw [List.map_cons, List.sum_cons]
    have hrest := sum_regSize_nonneg hP v
    have := hP.regSize_pos r
    omega
  have halign : 0 < P.simdWidth / 8 * GEN_REG_SIZE := by
    rcases hP.simdWidth with h | h <;> rw [h] <;> decide
  have hf := allocateReg_fresh hP hsize halign h hp hs1
  have hcarve : Carving P s1 o (v.map P.regSize).sum 0 o := by
    refine ⟨⟨by rw [hf.block]; rfl, fun b hlo hhi => ⟨o, _, hf.block, hlo, hhi⟩⟩, ?_,
      fun _ => rfl, fun h0 => absurd h0 (lt_irrefl 0),
      fun hc => ⟨fun _ => hf.unowned hc, fun h0 => absurd h0 (lt_irrefl 0)⟩⟩
    rw [hf.block]
    congr 1
    omega
  exact placeVector_scan hP hf.scan hf.pending hcarve le_rfl (by omega) hregs he

theorem allocateVector_extends {u : ℕ} {v : List ℕ} (he : allocateVector P s u v = some s') :
    Extends s s' ∧ ∀ r ∈ v, s.registerMap r = none ∧ (s'.registerMap r).isSome := by
  simp only [allocateVector] at he
  obtain ⟨⟨s1, o⟩, hs1, he⟩ := Option.bind_eq_some_iff.mp he
  simp only at he
  split at he
  · cases he
  obtain ⟨hext, hall⟩ := placeVector_extends he
  have hk := (allocateReg_keeps hs1).registerMap
  refine ⟨fun r hr => hext r ?_, fun r hr => ?_⟩
  · rw [hk]
    exact hr
  · rw [← hk]
    exact hall r hr

/-! ### The whole scan -/

theorem allocateOne_extends {u : ℕ} (he : allocateOne P s u = some s') : Extends s s' := by
  unfold allocateOne at he
  split at he
  · obtain rfl := Option.some_inj.mp he
    exact fun _ h => h
  split at he
  · obtain rfl := Option.some_inj.mp he
    exact fun _ h => h
  split at he
  · obtain rfl := Option.some_inj.mp he
    exact fun _ h => h
  split at he
  · exact (allocateVector_extends he).1
  · exact (createGenReg_extends he).1

/-- Between two rounds: `rest` is what the scan has still to look at. -/
structure Between (P : Input) (total : ℤ) (s : State) (bound : ℤ) (rest : List ℕ) : Prop where
  scan : Scan P total s bound
  pending : Pending P s s.ending
  payload : ∀ r, (P.payload r).isSome → (s.registerMap r).isSome
  sorted : (rest.Pairwise fun r u => (P.intervals r).minID ≤ (P.intervals u).minID) ∧
    ∀ r ∈ rest, bound ≤ (P.intervals r).minID
  todo : ∀ r < P.regNum, s.registerMap r = none → P.flagBooleans r = false →
    (P.intervals r).minID ≤ (P.intervals r).maxID → r ∈ rest

theorem allocateOne_between (hP : P.WellFormed) (hnear : P.Near) {u : ℕ} {rest : List ℕ}
    (h : Between P total s bound (u :: rest)) (he : allocateOne P s u = some s') :
    Between P total s' (P.intervals u).minID rest := by
  have hscan := h.scan.mono (h.sorted.2 u List.mem_cons_self)
  have hsorted := List.pairwise_cons.mp h.sorted.1
  have hpay : ∀ r, s.registerMap r = none → P.width r = P.regSize r := by
    intro r hr
    have : P.payload r = none := by
      rcases hp : P.payload r with _ | o
      · rfl
      · have := h.payload r (by simp [hp])
        rw [hr] at this
        cases this
    simp [Input.width, this]
  have hext := allocateOne_extends he
  -- what is left is enough to show that the register at hand is dealt with
  have hfinish : Scan P total s' (P.intervals u).minID ∧ Pending P s' s'.ending →
      ((P.intervals u).minID ≤ (P.intervals u).maxID → P.flagBooleans u = false →
        (s'.registerMap u).isSome) → Between P total s' (P.intervals u).minID rest := by
    rintro ⟨hs, hp⟩ hdone
    refine ⟨hs, hp, fun r hr => hext r (h.payload r hr), ⟨hsorted.2, hsorted.1⟩,
      fun r hlt hr hflag hlive => ?_⟩
    rcases List.mem_cons.mp (h.todo r hlt (hext.none hr) hflag hlive) with rfl | hmem
    · have := hdone hlive hflag
      rw [hr] at this
      cases this
    · exact hmem
  unfold allocateOne at he
  split at he
  · rename_i hunused
    obtain rfl := Option.some_inj.mp he
    have := hP.unused u hunused
    exact hfinish ⟨hscan, h.pending⟩ fun hlive => by omega
  rename_i hused
  split at he
  · rename_i hmapped
    obtain rfl := Option.some_inj.mp he
    exact hfinish ⟨hscan, h.pending⟩ fun _ _ => hmapped
  rename_i hu
  have hu0 : s.registerMap u = none := by simpa using hu
  split at he
  · rename_i hflag
    obtain rfl := Option.some_inj.mp he
    exact hfinish ⟨hscan, h.pending⟩ fun _ hnot => absurd (hflag.symm.trans hnot) (by simp)
  rename_i hflag
  split at he
  · rename_i v hv
    obtain ⟨huv, -, hall⟩ := hP.vector u v hv
    refine hfinish (allocateVector_scan hP hscan h.pending (List.ne_nil_of_mem huv) ?_ he)
      fun _ _ => ((allocateVector_extends he).2 u huv).2
    intro r hr
    obtain ⟨hlt, -, -, hflag⟩ := hall r hr
    have hr0 := ((allocateVector_extends he).2 r hr).1
    refine ⟨hflag, hpay r hr0, fun hlive => ?_⟩
    -- the first register of the vector in the order of the scan is the one at hand
    rcases List.mem_cons.mp (h.todo r hlt hr0 hflag hlive) with rfl | hmem
    · exact le_rfl
    · exact hsorted.1 r hmem
  · exact hfinish (createGenReg_scan hP hnear hscan h.pending hu0 (by simpa using hflag) hused
      (hpay u hu0) he) fun _ _ => (createGenReg_extends he).2

theorem foldlM_scan (hP : P.WellFormed) (hnear : P.Near) : ∀ {rest : List ℕ} {s s' : State}
    {bound : ℤ}, Between P total s bound rest → rest.foldlM (allocateOne P) s = some s' →
      ∃ bound', Scan P total s' bound' := by
  intro rest
  induction rest with
  | nil =>
    intro s s' bound h he
    obtain rfl := Option.some_inj.mp he
    exact ⟨bound, h.scan⟩
  | cons u rest ih =>
    intro s s' bound h he
    rw [List.foldlM_cons] at he
    obtain ⟨s1, hs1, he⟩ := Option.bind_eq_some_iff.mp he
    exact ih (allocateOne_between hP hnear h hs1) he

/-- Before the scan, payload registers own their blocks and nothing else is mapped. -/
theorem init_between (hP : P.WellFormed) :
    ∃ total bound, Between P total (init P) bound P.starting := by
  obtain ⟨total, l, hinv⟩ := hP.file
  have hblock : ∀ r o, P.payload r = some o →
      P.file.allocatedBlocks o = some (P.width r) := by
    intro r o hr
    obtain ⟨sz, hsz⟩ := Option.isSome_iff_exists.mp (hP.payload r o hr).2.1
    simp [Input.width, hr, hsz]
  have hscan : ∀ bound, Scan P total (init P) bound := by
    intro bound
    refine ⟨⟨l, hinv⟩, .init, fun e he => absurd he List.not_mem_nil, List.Pairwise.nil,
      fun r hr => ?_, fun f hf => absurd hf List.not_mem_nil, fun _ =>
        ⟨fun r o hr => ⟨_, hblock r o hr.1, le_rfl⟩,
          fun r r' o hr hr' => hP.payload_inj r r' o hr.1 hr'.1,
          fun r ⟨f, hf, _⟩ => absurd hf List.not_mem_nil,
          fun e he => absurd he List.not_mem_nil,
          fun r u o o' p hne hr hu _ _ _ _ => ?_, fun f hf => absurd hf List.not_mem_nil⟩⟩
    · obtain ⟨o, ho⟩ := Option.isSome_iff_exists.mp hr
      exact (hP.payload r o ho).2.2
    · by_contra hnot
      push Not at hnot
      obtain rfl := same_block ⟨l, hinv⟩ (hblock r o hr) (hblock u o' hu) le_rfl le_rfl hnot.1
        hnot.2
      exact hne (hP.payload_inj r u o hr hu)
  obtain ⟨bound, hbound⟩ : ∃ bound, ∀ r ∈ P.starting, bound ≤ (P.intervals r).minID := by
    rcases hst : P.starting with _ | ⟨r, rest⟩
    · exact ⟨0, by simp⟩
    · refine ⟨(P.intervals r).minID, fun u hu => ?_⟩
      have hsorted := hP.starting_sorted
      rw [hst, List.pairwise_cons] at hsorted
      rcases List.mem_cons.mp hu with rfl | hu
      · exact le_rfl
      · exact hsorted.1 u hu
  exact ⟨total, bound, hscan bound,
    ⟨List.dropWhile_suffix _, fun r _ ⟨f, hf, _⟩ => absurd hf List.not_mem_nil⟩, fun _ h => h,
    ⟨hP.starting_sorted, hbound⟩, fun r hr _ _ _ => (hP.starting r).mpr hr⟩

/-! ### The condition is exact -/

/-- A register is put into one hole only. -/
theorem Scan.not_inHole (h : Scan P total s bound) {e : Placement} {tag : HoleRegTag}
    (he : e ∈ s.placed) (htag : hole? P e = some tag) {g : ℕ} (hne : tag.reg ≠ g) (p : ℤ) :
    ¬ InHole P s g e.reg p := by
  rintro ⟨t, ⟨e', he', hreg, ht⟩, hg, -⟩
  have hsymm : Std.Symm fun e' e : Placement => e'.reg ≠ e.reg := ⟨fun _ _ hne => hne.symm⟩
  obtain rfl : e' = e := by
    by_contra hdiff
    exact h.once.forall he' he hdiff hreg
  obtain rfl := Option.some_inj.mp (ht.symm.trans htag)
  exact hne hg

/-- A run that keeps the registers apart meets the condition in every step. -/
theorem Scan.stepsMeet (h : Scan P total s bound) (hP : P.WellFormed)
    (hs : NonInterference P s) : StepsMeet P s := by
  refine ⟨fun f hf e he heq => ?_, h.once.imp_of_mem fun {e' e} he' he _ tag htag => ?_⟩
  · -- the owner of the hole has its bytes in the block that was freed
    obtain ⟨hsize, hearly⟩ := h.early f hf
    obtain ⟨tag, -, hne, hmap, hle⟩ := hearly e he heq
    have hpos := width_pos hP tag.reg
    have := hs.freed f hf tag.reg _ hne hmap (by omega) (by omega)
    omega
  obtain ⟨t, o, ht, hshares⟩ := h.shares hP he
  obtain rfl := Option.some_inj.mp (ht.symm.trans htag)
  obtain ⟨t', o', ht', hshares'⟩ := h.shares hP he'
  have hstart := hshares.start
  have hstart' := hshares'.start
  have hpos := width_pos hP e.reg
  refine ⟨fun heq => ?_, fun tag' htag' hreg p hlive' hlive => ?_⟩
  · -- the new register and the owner of the hole that the owner is in
    obtain rfl : o' = o := by
      have := hshares.owner
      rw [← heq] at this
      exact Option.some_inj.mp (hshares'.map.symm.trans this)
    rw [heq] at hstart'
    have hpos' := width_pos hP t'.reg
    have hfinish := hshares.finish
    have hfinish' := hshares'.finish
    rw [heq] at hfinish'
    have hlive := hshares.live
    have hnot : ¬ InHole P s e.reg t'.reg (P.intervals e.reg).minID := by
      rintro ⟨t3, ⟨e3, he3, hreg3, ht3⟩, hg, -⟩
      obtain ⟨t4, o4, ht4, hshares3⟩ := h.shares hP he3
      obtain rfl := Option.some_inj.mp (ht4.symm.trans ht3)
      have := hshares3.start
      rw [hg, hreg3] at this
      omega
    rcases hs.apart e.reg t'.reg o' o' _ (fun h => by rw [h] at hstart; omega) hshares.map
      hshares'.owner ⟨le_rfl, hlive⟩ ⟨by omega, by omega⟩ hnot
      (h.not_inHole he htag (fun h => by rw [h] at hstart'; omega) _) with h | h <;> omega
  · -- two registers in holes of one owner
    obtain rfl := Option.some_inj.mp (ht'.symm.trans htag')
    have hown := hshares'.owner
    rw [hreg] at hown
    obtain rfl := Option.some_inj.mp (hown.symm.trans hshares.owner)
    have hpos' := width_pos hP e'.reg
    rw [hreg] at hstart'
    rcases hs.apart e.reg e'.reg _ _ p (Ne.symm ‹_›) hshares.map hshares'.map hlive hlive'
      (h.not_inHole he' htag' (fun h => by rw [← h, hreg] at hstart; omega) p)
      (h.not_inHole he htag (fun h => by rw [h] at hstart'; omega) p) with h | h <;> omega

end Scan

/-- **Non-interference** holds of an allocation that completes without spilling exactly when
every step of it meets the condition. -/
theorem grf_non_interference_iff (P : Input) (hP : P.WellFormed) (hnear : P.Near) (s : State)
    (hrun : allocateGRFs P = some s) : NonInterference P s ↔ StepsMeet P s := by
  obtain ⟨total, bound, hinit⟩ := init_between hP
  obtain ⟨bound', hscan⟩ := foldlM_scan hP hnear hinit hrun
  exact ⟨hscan.stepsMeet hP, fun hc => (hscan.owned hc).sound⟩

/-- The register file, with `reserved` registers set aside for spilling. -/
def fileWithout (reserved : ℕ) : SimpleAllocator :=
  let file := SimpleAllocator.new GEN_REG_SIZE 4064
  if reserved = 0 then file
  else ((file.allocate (reserved * GEN_REG_SIZE) GEN_REG_SIZE false).getD (file, 0)).1

/-- Three registers: the first one has a hole, the second one fits into it, and the third
one starts after the second one has ended, before the hole is over. -/
def holeIntervals : ℕ → GenRegInterval
  | 0 => ⟨2, 40, -1, 0, false, true⟩
  | 1 => ⟨12, 20, 1, 0, false, false⟩
  | 2 => ⟨25, 45, -1, 0, false, false⟩
  | _ => ⟨INT_MAX, -INT_MAX, -1, 0, false, false⟩

def holeInput (reserved : ℕ) : Input where
  regNum := 3
  regSize _ := 32
  intervals := holeIntervals
  starting := [0, 1, 2]
  ending := [1, 0, 2]
  vectorMap _ := none
  flagBooleans _ := false
  holes b := if b = 1 then [⟨11, 30, 32, 0⟩] else []
  OCL_REUSE_HOLE_REG := true
  simdWidth := 8
  reservedSpillRegs := reserved
  regSpillTick := 0
  payload _ := none
  file := fileWithout reserved

theorem fileWithout_inv (reserved : ℕ) :
    ∃ total l, SimpleAllocator.Inv GEN_REG_SIZE total (fileWithout reserved) l := by
  have hnew := SimpleAllocator.new_inv GEN_REG_SIZE (show (0 : ℤ) < 4064 by decide)
  unfold fileWithout
  simp only
  split
  · exact ⟨_, _, hnew⟩
  · rename_i hpos
    have hsize : (0 : ℤ) < reserved * GEN_REG_SIZE :=
      mul_pos (by exact_mod_cast Nat.pos_of_ne_zero hpos) (by decide)
    rcases SimpleAllocator.allocate_spec hnew hsize (show 0 < GEN_REG_SIZE by decide) false with
      ⟨h, -⟩ | ⟨a, l, o, h, hinv, -⟩
    · rw [h]
      exact ⟨_, _, hnew⟩
    · rw [h]
      exact ⟨_, _, hinv⟩

/-- What holds of the four kinds of intervals holds of all. -/
theorem forall_holeIntervals {Q : GenRegInterval → Prop} (h : ∀ i < 4, Q (holeIntervals i))
    (r : ℕ) : Q (holeIntervals r) := by
  match r with
  | 0 => exact h 0 (by omega)
  | 1 => exact h 1 (by omega)
  | 2 => exact h 2 (by omega)
  | _ + 3 => exact h 3 (by omega)

theorem holeInput_hole {reserved : ℕ} {b : ℤ} {tag : HoleRegTag}
    (h : tag ∈ (holeInput reserved).holes b) : b = 1 ∧ tag = ⟨11, 30, 32, 0⟩ := by
  simp only [holeInput] at h
  split at h
  · exact ⟨‹_›, List.mem_singleton.mp h⟩
  · cases h

theorem holeInput_wellFormed (reserved : ℕ) : (holeInput reserved).WellFormed where
  regSize_pos _ := by simp [holeInput]
  simdWidth := .inl rfl
  starting r := by
    simp only [holeInput, List.mem_cons, List.not_mem_nil, or_false]
    omega
  starting_sorted := by simp [holeInput, holeIntervals]
  ending r := by
    simp only [holeInput, List.mem_cons, List.not_mem_nil, or_false]
    omega
  ending_nodup := by simp [holeInput]
  ending_sorted := by simp [holeInput, holeIntervals]
  unused := forall_holeIntervals (Q := fun i => i.maxID = -INT_MAX → i.maxID < i.minID) (by decide)
  inBlock := forall_holeIntervals
    (Q := fun i => 0 ≤ i.blockID → i.maxID ≠ -INT_MAX → i.minID ≤ i.maxID) (by decide)
  vector r v h := absurd h (by simp [holeInput])
  hole b tag h := by
    obtain ⟨rfl, rfl⟩ := holeInput_hole h
    exact ⟨show (2 : ℤ) < 11 by decide, show (30 : ℤ) < 40 by decide, le_rfl⟩
  owner b tag h := by
    obtain ⟨rfl, rfl⟩ := holeInput_hole h
    exact ⟨show 0 < 3 by decide, rfl⟩
  payload r o h := absurd h (by simp [holeInput])
  payload_inj r u o h := absurd h (by simp [holeInput])
  file := fileWithout_inv reserved

theorem holeInput_near (reserved : ℕ) : (holeInput reserved).Near := by
  intro r tag h
  obtain ⟨hb, rfl⟩ := holeInput_hole h
  exact forall_holeIntervals (Q := fun i => i.blockID = 1 →
    i.minID - 11 + 1 < 2 ^ 23 ∧ 30 - i.maxID + 1 < 2 ^ 23) (by decide) r hb

theorem not_inHole {P : Input} {s : State} {owner user : ℕ} {p : ℤ}
    (h : ∀ e ∈ s.placed, e.reg ≠ user) : ¬ InHole P s owner user p :=
  fun ⟨_, ⟨e, he, hreg, _⟩, _⟩ => h e he hreg

/-- Without reserved registers the third register does not expire anything. -/
theorem grf_non_interference_hole :
    ∃ s, allocateGRFs (holeInput 0) = some s ∧ s.placed = [⟨1, 1, 0⟩] ∧
      s.registerMap 0 = some 32 ∧ s.registerMap 2 = some 64 ∧ NonInterference (holeInput 0) s := by
  have hrun : (allocateGRFs (holeInput 0)).map (fun s =>
      (s.placed, s.registerMap 0, s.registerMap 2, s.freed.map Freed.reg)) =
        some ([⟨1, 1, 0⟩], some 32, some 64, []) := by decide +kernel
  obtain ⟨s, hs, heq⟩ := Option.map_eq_some_iff.mp hrun
  simp only [Prod.mk.injEq, List.map_eq_nil_iff] at heq
  obtain ⟨hplaced, h0, h2, hfreed⟩ := heq
  have hmeet : StepsMeet (holeInput 0) s := by
    refine ⟨fun f hf => ?_, ?_⟩
    · rw [hfreed] at hf
      exact absurd hf List.not_mem_nil
    · rw [hplaced]
      exact List.pairwise_singleton _ _
  exact ⟨s, hs, hplaced, h0, h2, (grf_non_interference_iff (holeInput 0) (holeInput_wellFormed 0)
    (holeInput_near 0) s hs).mpr hmeet⟩

/-- With reserved registers every allocation expires what it can.  The third register
expires the second one, gets the block of the first one, and both are live after the
hole. -/
theorem expired_hole_user :
    (holeInput 8).WellFormed ∧ (holeInput 8).Near ∧ ∃ s, allocateGRFs (holeInput 8) = some s ∧
      s.registerMap 0 = some 32 ∧ s.registerMap 2 = some 32 ∧ Live (holeInput 8) 0 35 ∧
      Live (holeInput 8) 2 35 ∧ ¬ InHole (holeInput 8) s 0 2 35 ∧
      ¬ InHole (holeInput 8) s 2 0 35 ∧ s.freed.map Freed.reg = [1] := by
  refine ⟨holeInput_wellFormed 8, holeInput_near 8, ?_⟩
  have hrun : (allocateGRFs (holeInput 8)).map (fun s =>
      (s.registerMap 0, s.registerMap 2, s.placed, s.freed.map Freed.reg)) =
        some (some 32, some 32, [⟨1, 1, 0⟩], [1]) := by decide +kernel
  obtain ⟨s, hs, heq⟩ := Option.map_eq_some_iff.mp hrun
  simp only [Prod.mk.injEq] at heq
  obtain ⟨h0, h2, hplaced, hfreed⟩ := heq
  exact ⟨s, hs, h0, h2, by decide, by decide, not_inHole (by simp [hplaced]),
    not_inHole (by simp [hplaced]), hfreed⟩

end GenRegAllocator

end Backend
