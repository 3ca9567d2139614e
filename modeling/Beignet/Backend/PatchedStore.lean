/-
All branches patched.

The branches are patched one after another in one store.  Each patch changes its own branch and,
for a long jump of Gen7, the `NOP` behind it; it reads besides whether there is an `ELSE` at its
target, which no patch changes.  So every branch is patched as if it were alone
(`Footprint.foldl_footprint`).

* **`Pending.patchBranches_sound_iff`** — `patchBranches` is sound iff every offset fits.
* `outOfRange_eq_true` — the range test of the second loop never passes.
-/
import Beignet.Backend.PatchedTargets
import Beignet.Lib.Footprint

namespace Backend

namespace Patch

/-! ### What one patch changes -/

/-- The patch also takes the `NOP` behind the branch. -/
def TakesNop (gen : Generation) (insn : Insn) (jip : BitVec 32) : Prop :=
  gen = .gen7 ∧ insn.opcode = .JMPI ∧ insn.predicated = true ∧ isShort jip = false

/-- What a patch may change. -/
def patchFootprint (gen : Generation) (store : Store) (insnID jip : BitVec 32) :
    Set (BitVec 32) :=
  {x | x = insnID ∨ x = insnID + 2 ∧ TakesNop gen (store insnID) jip}

/-- Both stores have an `ELSE` at the same positions. -/
def SameElse (s0 s : Store) : Prop := ∀ x, (s x).opcode = .ELSE ↔ (s0 x).opcode = .ELSE

section Local

variable {gen : Generation} {s0 s : Store} {insnID jip uip : BitVec 32}

theorem whileDistance_congr (hid : s insnID = s0 insnID) (helse : SameElse s0 s) :
    whileDistance s insnID jip = whileDistance s0 insnID jip := by
  simp only [whileDistance, hid, helse (insnID + jip)]

theorem whileDistance_jump (h : (s insnID).opcode = .JMPI) : whileDistance s insnID jip = jip := by
  simp [whileDistance, h]

/-- Outside its footprint a patch changes nothing. -/
theorem patchJMPI_frame {x : BitVec 32} (hx : x ∉ patchFootprint gen s insnID jip) :
    patchJMPI gen s insnID jip uip x = s x := by
  have hne : x ≠ insnID := fun h => hx (.inl h)
  cases gen with
  | gen75 => simp [patchJMPI, patchJMPI75, hne]
  | gen8 => simp [patchJMPI, patchJMPI8, hne]
  | gen7 =>
    simp only [patchJMPI, patchJMPI7]
    split_ifs with hshort hp
    · simp [hne]
    · simp [hne]
    · have hj : (s insnID).opcode = .JMPI := by
        by_contra h
        exact hshort (.inl h)
      have hlong : ¬ isShort jip = true := fun h => hshort (.inr (by rwa [whileDistance_jump hj]))
      have hne2 : x ≠ insnID + 2 := fun h => hx (.inr ⟨h, rfl, hj, by simpa using hp,
        by simpa using hlong⟩)
      rw [Function.update_of_ne hne2, Function.update_of_ne hne]

/-- What a patch writes depends on its footprint only. -/
theorem patchJMPI_value (hfresh : ∀ x ∈ patchFootprint gen s0 insnID jip, s x = s0 x)
    (helse : SameElse s0 s) {x : BitVec 32} (hx : x ∈ patchFootprint gen s0 insnID jip) :
    patchJMPI gen s insnID jip uip x = patchJMPI gen s0 insnID jip uip x := by
  have hid : s insnID = s0 insnID := hfresh insnID (.inl rfl)
  have hdist : whileDistance s insnID jip = whileDistance s0 insnID jip :=
    whileDistance_congr hid helse
  have hupdate : ∀ v, Function.update s insnID v x = Function.update s0 insnID v x := by
    intro v
    by_cases h : x = insnID
    · simp [h]
    · simp [h, hfresh x hx]
  cases gen with
  | gen75 => simp only [patchJMPI, patchJMPI75, hid, hdist, hupdate]
  | gen8 => simp only [patchJMPI, patchJMPI8, hid, hdist, hupdate]
  | gen7 =>
    simp only [patchJMPI, patchJMPI7, hid, hdist]
    split_ifs with hshort hp
    · exact hupdate _
    · exact hupdate _
    · by_cases h2 : x = insnID + 2
      · subst h2
        rw [Function.update_self, Function.update_self, hfresh _ hx]
      · rw [Function.update_of_ne h2, Function.update_of_ne h2]
        exact hupdate _

/-- A patch that takes a `NOP` writes and removes no `ELSE`. -/
theorem sameElse_patchJMPI (hnop : TakesNop gen (s insnID) jip → (s (insnID + 2)).opcode = .NOP) :
    SameElse s (patchJMPI gen s insnID jip uip) := by
  intro x
  -- every update keeps the opcode or puts an `ADD` for a jump or a `NOP`
  have hupdate : ∀ v : Insn, v.opcode = (s insnID).opcode →
      ((Function.update s insnID v x).opcode = .ELSE ↔ (s x).opcode = .ELSE) := by
    intro v hv
    by_cases h : x = insnID
    · simp [h, hv]
    · simp [h]
  cases gen with
  | gen75 => exact hupdate _ rfl
  | gen8 =>
    apply hupdate
    split_ifs <;> rfl
  | gen7 =>
    simp only [patchJMPI, patchJMPI7]
    split_ifs with hshort hp
    · exact hupdate _ rfl
    all_goals
      have hj : (s insnID).opcode = .JMPI := by
        by_contra h
        exact hshort (.inl h)
    · by_cases h : x = insnID
      · simp [h, hj]
      · simp [h]
    · have hlong : ¬ isShort jip = true := fun h => hshort (.inr (by rwa [whileDistance_jump hj]))
      have h2 := hnop ⟨rfl, hj, by simpa using hp, by simpa using hlong⟩
      by_cases h : x = insnID + 2
      · subst h
        rw [Function.update_self, h2]
        simp
      · rw [Function.update_of_ne h]
        exact hupdate _ rfl

theorem patchFootprint_congr (hid : s insnID = s0 insnID) :
    patchFootprint gen s insnID jip = patchFootprint gen s0 insnID jip := by
  simp only [patchFootprint, hid]

/-- Where a branch goes is decided by what it may change. -/
theorem jumps_congr {before after after' : Store} {target : ℤ}
    (hid : after insnID = after' insnID)
    (hnop : (after insnID).predicate_inverse ≠ (before insnID).predicate_inverse →
      after (insnID + 2) = after' (insnID + 2)) :
    Jumps gen before after insnID target ↔ Jumps gen before after' insnID target := by
  by_cases h : (after insnID).predicate_inverse = (before insnID).predicate_inverse
  · rw [jumps_of_same h, jumps_of_same (by rw [← hid, h]), hid]
  · rw [Jumps, Jumps, ← hid, if_neg h, if_neg h, hnop h]

/-- Only a patch that takes the `NOP` inverts the predicate. -/
theorem takesNop_of_inverse (h : (patchJMPI gen s insnID jip uip insnID).predicate_inverse ≠
    (s insnID).predicate_inverse) : TakesNop gen (s insnID) jip := by
  cases gen with
  | gen75 => exact absurd (by simp [patchJMPI, patchJMPI75]) h
  | gen8 =>
    refine absurd ?_ h
    simp only [patchJMPI, patchJMPI8, Function.update_self]
    split_ifs <;> rfl
  | gen7 =>
    by_cases hj : (s insnID).opcode = .JMPI
    · refine ⟨rfl, hj, ?_, ?_⟩
      · by_contra hp
        refine absurd ?_ h
        simp only [patchJMPI, patchJMPI7]
        split_ifs <;> simp_all
      · by_contra hshort
        refine absurd ?_ h
        simp only [patchJMPI, patchJMPI7, whileDistance_jump hj]
        simp_all
    · refine absurd ?_ h
      simp [patchJMPI, patchJMPI7, hj]

end Local

/-! ### The loops -/

namespace Pending

variable {gen : Generation} (p : Pending gen)

/-- What the patch of a branch may change. -/
def footprint2 (b : ℕ × BitVec 32) : Set (BitVec 32) :=
  {x | ∃ pos, p.labelPos b.1 = some pos ∧ x ∈ patchFootprint gen p.store b.2 (pos - b.2)}

variable {p} {b c : ℕ × BitVec 32}

theorem nop_of_takesNop (hb : b ∈ p.branchPos2) {pos : BitVec 32} (hpos : p.labelPos b.1 = some pos)
    (h : TakesNop gen (p.store b.2) (pos - b.2)) : (p.store (b.2 + 2)).opcode = .NOP :=
  p.nop h.1 b hb h.2.1 pos hpos h.2.2.2

/-- A patch changes its branch or a `NOP`. -/
theorem mem_footprint2 (hb : b ∈ p.branchPos2) {x : BitVec 32} (hx : x ∈ p.footprint2 b) :
    x = b.2 ∨ x = b.2 + 2 ∧ (p.store x).opcode = .NOP := by
  obtain ⟨pos, hpos, hx | ⟨hx, htakes⟩⟩ := hx
  · exact .inl hx
  · subst hx
    exact .inr ⟨rfl, nop_of_takesNop hb hpos htakes⟩

theorem opcode_ne_nop2 (hb : b ∈ p.branchPos2) : (p.store b.2).opcode ≠ .NOP := by
  intro h
  have := p.opcode_branchPos2 b hb
  simp [h] at this

theorem opcode_ne_nop3 {b : (ℕ × ℕ) × BitVec 32} (hb : b ∈ p.branchPos3) :
    (p.store b.2).opcode ≠ .NOP := by
  intro h
  have := p.opcode_branchPos3 b hb
  simp [h] at this

theorem local2 : Footprint.Local (patch2 gen p.labelPos) p.store (SameElse p.store) p.footprint2
    p.branchPos2 where
  frame := by
    intro s b _ helse hfresh x hx
    cases hpos : p.labelPos b.1 with
    | none => simp only [patch2, hpos]
    | some pos =>
      simp only [patch2, hpos]
      apply patchJMPI_frame
      rw [patchFootprint_congr (hfresh b.2 ⟨pos, hpos, .inl rfl⟩)]
      exact fun h => hx ⟨pos, hpos, h⟩
  value := by
    rintro s b _ helse hfresh x ⟨pos, hpos, hx⟩
    simp only [patch2, hpos]
    exact patchJMPI_value (fun y hy => hfresh y ⟨pos, hpos, hy⟩) helse hx
  keep := by
    intro s b hb helse hfresh x
    cases hpos : p.labelPos b.1 with
    | none =>
      simp only [patch2, hpos]
      exact helse x
    | some pos =>
      simp only [patch2, hpos]
      rw [← helse x]
      apply sameElse_patchJMPI
      intro htakes
      have hid := hfresh b.2 ⟨pos, hpos, .inl rfl⟩
      rw [hid] at htakes
      rw [hfresh (b.2 + 2) ⟨pos, hpos, .inr ⟨rfl, htakes⟩⟩]
      exact nop_of_takesNop hb hpos htakes

theorem disjoint2 :
    p.branchPos2.Pairwise fun b c => Disjoint (p.footprint2 b) (p.footprint2 c) := by
  have hne : p.branchPos2.Pairwise fun b c => b.2 ≠ c.2 :=
    List.pairwise_map.mp (List.nodup_append.mp p.nodup).1
  refine hne.imp_of_mem ?_
  intro b c hb hc hbc
  rw [Set.disjoint_left]
  intro x hxb hxc
  rcases mem_footprint2 hb hxb with rfl | ⟨hxb', hnop⟩ <;>
    rcases mem_footprint2 hc hxc with hxc' | ⟨hxc', hnop'⟩
  · exact hbc hxc'
  · exact opcode_ne_nop2 hb hnop'
  · subst hxc'
    exact opcode_ne_nop2 hc hnop
  · rw [hxb'] at hxc'
    exact hbc (by bv_omega)

variable (p) in
/-- The store after the first loop. -/
def store2 : Store := p.branchPos2.foldl (patch2 gen p.labelPos) p.store

theorem store2_spec :
    (∀ b ∈ p.branchPos2, ∀ x ∈ p.footprint2 b, p.store2 x = patch2 gen p.labelPos p.store b x) ∧
      (∀ x, (∀ b ∈ p.branchPos2, x ∉ p.footprint2 b) → p.store2 x = p.store x) ∧
      SameElse p.store p.store2 :=
  Footprint.foldl_footprint local2 disjoint2 (fun _ => Iff.rfl) fun _ _ _ _ => rfl

/-- A branch is patched right if it is in the store where it alone is patched. -/
theorem correct2_congr {after : Store}
    (h : ∀ x ∈ p.footprint2 b, after x = patch2 gen p.labelPos p.store b x) :
    p.Correct2 after b ↔ p.Correct2 (patch2 gen p.labelPos p.store b) b := by
  refine exists_congr fun pos => and_congr_right fun hpos => ?_
  have hid := h b.2 ⟨pos, hpos, .inl rfl⟩
  rw [hid]
  refine and_congr_left fun _ => jumps_congr hid ?_
  intro hinv
  apply h
  rw [hid] at hinv
  simp only [patch2, hpos] at hinv
  exact ⟨pos, hpos, .inr ⟨rfl, takesNop_of_inverse hinv⟩⟩

theorem jumps_patchJMPI {store : Store} {insnID pos : BitVec 32}
    (hop : (store insnID).opcode ∈ [.JMPI, .BRD, .BRC, .IF, .ELSE, .ENDIF, .WHILE])
    (uip : BitVec 32) :
    Jumps gen store (patchJMPI gen store insnID (pos - insnID) uip) insnID
      (pos.toNat + adjustment gen store insnID pos) ↔ FitsJump gen store insnID pos := by
  cases gen with
  | gen7 => exact jumps_gen7 hop uip
  | gen75 => exact jumps_gen75 hop uip
  | gen8 => exact jumps_gen8 hop uip

theorem correct2_patch2 (hb : b ∈ p.branchPos2) :
    p.Correct2 (patch2 gen p.labelPos p.store b) b ↔
      ∃ pos, p.labelPos b.1 = some pos ∧ FitsJump gen p.store b.2 pos := by
  refine exists_congr fun pos => and_congr_right fun hpos => ?_
  have hop : (p.store b.2).opcode ∈ [.JMPI, .BRD, .BRC, .IF, .ELSE, .ENDIF, .WHILE] := by
    have := p.opcode_branchPos2 b hb
    simp only [List.mem_cons, List.not_mem_nil, or_false] at this ⊢
    tauto
  simp only [patch2, hpos]
  rw [jumps_patchJMPI hop 0]
  refine and_iff_left_of_imp ?_
  intro hfits hgen helse
  subst hgen
  exact goesUip_else helse 0 hfits

/-- The first loop is right iff all distances fit. -/
theorem correct2_iff {after : Store} (hb : b ∈ p.branchPos2)
    (h : ∀ x ∈ p.footprint2 b, after x = p.store2 x) :
    p.Correct2 after b ↔ ∃ pos, p.labelPos b.1 = some pos ∧ FitsJump gen p.store b.2 pos := by
  rw [correct2_congr fun x hx => (h x hx).trans (store2_spec.1 b hb x hx), correct2_patch2 hb]

/-! ### The second loop -/

/-- The range test of Gen7 and Gen7.5 never passes. -/
theorem outOfRange_eq_true (insn_id jip uip : BitVec 32) : outOfRange insn_id jip uip = true := by
  have h : (jip - insn_id).toNat > 32767 ∨ (jip - insn_id).toNat < 2 ^ 32 - 32768 := by omega
  simp only [outOfRange, Bool.or_eq_true, decide_eq_true_iff]
  exact .inl h

/-- The second loop of Gen7 and Gen7.5 fails at the first branch with both labels, and passes
over all others. -/
theorem patch3_eq (labelPos : ℕ → Option (BitVec 32)) (store : Store)
    (l : List ((ℕ × ℕ) × BitVec 32)) :
    patch3 gen labelPos store l =
      if l.any fun b => (labelPos b.1.1).isSome && (labelPos b.1.2).isSome then
        ⟨store, false, .OUT_OF_RANGE_IF_ENDIF⟩
      else ⟨store, true, .NO_ERROR⟩ := by
  induction l with
  | nil => simp [patch3]
  | cons b rest ih =>
    rw [patch3, List.any_cons]
    cases h1 : labelPos b.1.1 with
    | none => exact ih
    | some jip =>
      cases h₂ : labelPos b.1.2 with
      | none => exact ih
      | some uip => simp [outOfRange_eq_true]

section Gen8

variable {p : Pending .gen8} {b : (ℕ × ℕ) × BitVec 32}

/-- What the second loop changes on Gen8. -/
def footprint3 (b : (ℕ × ℕ) × BitVec 32) : Set (BitVec 32) := {b.2}

theorem patchFootprint_gen8 {store : Store} {insnID jip : BitVec 32} :
    patchFootprint .gen8 store insnID jip = {insnID} := by
  ext x
  simp [patchFootprint, TakesNop]

theorem patch38_cases (p : Pending .gen8) (b : (ℕ × ℕ) × BitVec 32) :
    (∃ jip uip, p.labelPos b.1.1 = some jip ∧ p.labelPos b.1.2 = some uip ∧
      ∀ s, p.patch38 s b = patchJMPI .gen8 s b.2 (jip - b.2) (uip - b.2)) ∨
      ∀ s, p.patch38 s b = s := by
  cases h1 : p.labelPos b.1.1 with
  | none => exact .inr fun s => by simp only [patch38, h1]
  | some jip =>
    cases h₂ : p.labelPos b.1.2 with
    | none => exact .inr fun s => by simp only [patch38, h1, h₂]
    | some uip => exact .inl ⟨jip, uip, rfl, rfl, fun s => by simp only [patch38, h1, h₂]⟩

theorem local3 : Footprint.Local p.patch38 p.store (SameElse p.store) footprint3
    p.branchPos3 where
  frame := by
    intro s b _ helse hfresh x hx
    obtain ⟨jip, uip, -, -, h⟩ | h := p.patch38_cases b
    · rw [h]
      apply patchJMPI_frame
      rw [patchFootprint_gen8]
      exact hx
    · rw [h]
  value := by
    intro s b _ helse hfresh x hx
    obtain ⟨jip, uip, -, -, h⟩ | h := p.patch38_cases b
    · rw [h, h]
      refine patchJMPI_value (fun y hy => ?_) helse (by rw [patchFootprint_gen8]; exact hx)
      rw [patchFootprint_gen8] at hy
      exact hfresh y hy
    · rw [h, h]
      exact hfresh x hx
  keep := by
    intro s b _ helse hfresh x
    obtain ⟨jip, uip, -, -, h⟩ | h := p.patch38_cases b
    · rw [h, ← helse x]
      exact sameElse_patchJMPI (fun h => absurd h.1 (by decide)) x
    · rw [h]
      exact helse x

theorem disjoint3 :
    p.branchPos3.Pairwise fun b c => Disjoint (footprint3 b) (footprint3 c) := by
  have hne : p.branchPos3.Pairwise fun b c => b.2 ≠ c.2 :=
    List.pairwise_map.mp (List.nodup_append.mp p.nodup).2.1
  refine hne.imp ?_
  intro b c hbc
  exact Set.disjoint_singleton.mpr hbc

/-- No branch of the second loop is touched by the first. -/
theorem not_mem_footprint2 (hb : b ∈ p.branchPos3) {c : ℕ × BitVec 32} (hc : c ∈ p.branchPos2) :
    b.2 ∉ p.footprint2 c := by
  intro h
  rcases mem_footprint2 hc h with h | ⟨-, h⟩
  · exact (List.nodup_append.mp p.nodup).2.2 c.2 (List.mem_map_of_mem hc) b.2
      (List.mem_map_of_mem hb) h.symm
  · exact opcode_ne_nop3 hb h

variable (p) in
/-- The store after the second loop. -/
def store3 : Store := p.branchPos3.foldl p.patch38 p.store2

theorem store3_spec :
    (∀ b ∈ p.branchPos3, p.store3 b.2 = p.patch38 p.store b b.2) ∧
      ∀ b ∈ p.branchPos2, ∀ x ∈ p.footprint2 b, p.store3 x = p.store2 x := by
  obtain ⟨-, hout, helse⟩ := @store2_spec _ p
  have hfresh : ∀ b ∈ p.branchPos3, Footprint.Fresh p.store footprint3 p.store2 b := by
    rintro b hb x rfl
    exact hout b.2 fun c hc => not_mem_footprint2 hb hc
  obtain ⟨hval, hframe, -⟩ := Footprint.foldl_footprint local3 disjoint3 helse hfresh
  refine ⟨fun b hb => hval b hb b.2 rfl, ?_⟩
  intro c hc x hx
  apply hframe
  rintro b hb rfl
  exact not_mem_footprint2 hb hc hx

theorem correct3_iff (hb : b ∈ p.branchPos3) :
    p.Correct3 p.store3 b ↔ ∃ jip uip, p.labelPos b.1.1 = some jip ∧ p.labelPos b.1.2 = some uip ∧
      FitsJump .gen8 p.store b.2 jip ∧ FitsUip p.store b.2 uip := by
  refine exists_congr fun jip => exists_congr fun uip => and_congr_right fun hjip =>
    and_congr_right fun huip => ?_
  have hop3 := p.opcode_branchPos3 b hb
  have hop : (p.store b.2).opcode ∈ [.JMPI, .BRD, .BRC, .IF, .ELSE, .ENDIF, .WHILE] := by
    simp only [List.mem_cons, List.not_mem_nil, or_false] at hop3 ⊢
    tauto
  have hadj : adjustment .gen8 p.store b.2 jip = 0 := by
    simp only [List.mem_cons, List.not_mem_nil, or_false] at hop3
    rcases hop3 with h | h <;> simp [adjustment, h]
  have hafter : p.store3 b.2 =
      patchJMPI .gen8 p.store b.2 (jip - b.2) (uip - b.2) b.2 := by
    rw [store3_spec.1 b hb, patch38, hjip, huip]
  have hsame : (p.store3 b.2).predicate_inverse = (p.store b.2).predicate_inverse := by
    by_contra h
    rw [hafter] at h
    exact absurd (takesNop_of_inverse h).1 (by decide)
  rw [← jumps_patchJMPI hop (uip - b.2), hadj, Int.add_zero, hafter, goesUip_gen8 hop3]
  refine and_congr_left fun _ => jumps_congr hafter fun h => absurd hsame h

end Gen8

/-! ### All branches -/

/-- Gen7 and Gen7.5. -/
theorem patchBranches7_sound_iff (p : Pending gen) :
    (∃ r, some p.patchBranches7 = some r ∧
      (r.returned = true →
        (∀ b ∈ p.branchPos2, p.Correct2 r.store b) ∧ ∀ b ∈ p.branchPos3, p.Correct3 r.store b) ∧
      (r.returned = false → r.errCode ≠ .NO_ERROR)) ↔
    (∃ b ∈ p.branchPos3, (p.labelPos b.1.1).isSome ∧ (p.labelPos b.1.2).isSome) ∨
      (p.branchPos3 = [] ∧ ∀ b ∈ p.branchPos2, ∃ pos, p.labelPos b.1 = some pos ∧
        FitsJump gen p.store b.2 pos) := by
  have hany : (p.branchPos3.any fun b => (p.labelPos b.1.1).isSome && (p.labelPos b.1.2).isSome) =
      true ↔ ∃ b ∈ p.branchPos3, (p.labelPos b.1.1).isSome ∧ (p.labelPos b.1.2).isSome := by
    simp
  have hres := @patch3_eq gen p.labelPos p.store2 p.branchPos3
  by_cases hb : ∃ b ∈ p.branchPos3, (p.labelPos b.1.1).isSome ∧ (p.labelPos b.1.2).isSome
  · -- the range test fails and says so
    rw [if_pos (hany.mpr hb)] at hres
    refine iff_of_true ⟨_, rfl, ?_⟩ (.inl hb)
    rw [patchBranches7, ← store2, hres]
    simp
  · rw [if_neg fun h => hb (hany.mp h)] at hres
    have hempty : (∀ b ∈ p.branchPos3, p.Correct3 p.store2 b) ↔ p.branchPos3 = [] := by
      constructor
      · intro h
        refine List.eq_nil_iff_forall_not_mem.mpr ?_
        intro b hb3
        obtain ⟨jip, uip, hjip, huip, -⟩ := h b hb3
        exact hb ⟨b, hb3, by simp [hjip], by simp [huip]⟩
      · intro h
        simp [h]
    have h2 : (∀ b ∈ p.branchPos2, p.Correct2 p.store2 b) ↔ ∀ b ∈ p.branchPos2, ∃ pos,
        p.labelPos b.1 = some pos ∧ FitsJump gen p.store b.2 pos :=
      forall₂_congr fun b hb => correct2_iff hb fun _ _ => rfl
    rw [patchBranches7, ← store2, hres]
    simp only [Option.some.injEq, exists_eq_left', reduceCtorEq, false_implies, and_true,
      true_implies, or_iff_right hb, h2, hempty]
    exact and_comm

/-- Gen8. -/
theorem patchBranches8_sound_iff (p : Pending .gen8) : p.Sound ↔ p.Fit := by
  have hlabels : p.Fit → (p.labels.all fun l => (p.labelPos l).isSome) = true := by
    rintro ⟨h2, h3⟩
    simp only [labels, List.all_append, Bool.and_eq_true, List.all_eq_true, List.mem_map,
      List.mem_flatMap]
    refine ⟨?_, ?_⟩
    · rintro l ⟨b, hb, rfl⟩
      obtain ⟨pos, hpos, -⟩ := h2 b hb
      simp [hpos]
    · rintro l ⟨b, hb, hl⟩
      obtain ⟨jip, uip, hjip, huip, -⟩ := h3 b hb
      simp only [List.mem_cons, List.not_mem_nil, or_false] at hl
      rcases hl with rfl | rfl
      · simp [hjip]
      · simp [huip]
  have hcorrect : ((∀ b ∈ p.branchPos2, p.Correct2 p.store3 b) ∧
      ∀ b ∈ p.branchPos3, p.Correct3 p.store3 b) ↔ p.Fit :=
    and_congr (forall₂_congr fun b hb => correct2_iff hb (store3_spec.2 b hb))
      (forall₂_congr fun b hb => correct3_iff hb)
  by_cases hall : (p.labels.all fun l => (p.labelPos l).isSome) = true
  · have hres : p.patchBranches = some ⟨p.store3, true, .NO_ERROR⟩ := by
      show p.patchBranches8 = _
      rw [patchBranches8, if_pos hall]
      rfl
    rw [Sound, hres, ← hcorrect]
    simp
  · refine iff_of_false ?_ fun h => hall (hlabels h)
    rintro ⟨r, hr, -⟩
    change p.patchBranches8 = some r at hr
    rw [patchBranches8, if_neg hall] at hr
    cases hr

/-- A successful `patchBranches` leaves every branch at its label, and an unsuccessful one an
error, exactly when the branches fit. -/
theorem patchBranches_sound_iff (p : Pending gen) : p.Sound ↔ p.Fit := by
  cases gen with
  | gen7 => exact patchBranches7_sound_iff p
  | gen75 => exact patchBranches7_sound_iff p
  | gen8 => exact patchBranches8_sound_iff p

/-- A jump of Gen7 back over the whole short range. -/
def farJump : Pending .gen7 where
  store := fun x =>
    { opcode := if x = 32768 then .JMPI else .other, predicated := true,
      predicate_inverse := false, ip := false, bits2 := 0, bits3 := 0 }
  labelPos := fun l => if l = 0 then some 0 else none
  branchPos2 := [(0, 32768)]
  branchPos3 := []
  opcode_branchPos2 := by decide
  opcode_branchPos3 := by decide
  nodup := by decide
  nop := by
    intro _ b hb _ pos hpos hshort
    simp only [List.mem_singleton] at hb
    subst hb
    obtain rfl : (0 : BitVec 32) = pos := Option.some.inj hpos
    exact absurd hshort (by decide)

/-- The stored offset leads forward to `65536`, not back to the label at `0`. -/
theorem farJump_unsound : farJump.patchBranches.map Result.returned = some true ∧
    ¬ farJump.Sound := by
  refine ⟨rfl, ?_⟩
  rintro ⟨r, hr, hcorrect, -⟩
  obtain rfl : farJump.patchBranches7 = r := Option.some.inj hr
  obtain ⟨pos, hpos, hjumps, -⟩ := (hcorrect rfl).1 (0, 32768) List.mem_cons_self
  obtain rfl : (0 : BitVec 32) = pos := Option.some.inj hpos
  have hsame : (farJump.patchBranches7.store 32768).predicate_inverse =
      (farJump.store 32768).predicate_inverse := by decide
  have hgoes : (0 : ℤ) = 32768 + 2 + low (farJump.patchBranches7.store 32768).bits3 :=
    (jumps_of_same hsame).mp hjumps
  exact absurd hgoes (by decide)

end Pending

end Patch

end Backend
