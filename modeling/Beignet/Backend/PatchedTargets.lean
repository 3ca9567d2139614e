/-
One patched branch: whether the offset that `patchJMPI` stores leads to the label.

A distance is computed modulo `2 ^ 32` and stored in 16 or 32 bits, so the stored offset is the
number that is meant iff that fits in the field (`toInt_ofInt_eq_iff`).

* **`jumps_gen7`**, **`jumps_gen75`**, **`jumps_gen8`** — the branch goes to its label iff the
  distance fits.
* `goesUip_else`, `goesUip_gen8` — the second offset of Gen8.
-/
import Beignet.Backend.PatchBranches

namespace Backend

namespace Patch

/-! ### Stored numbers -/

theorem toInt_ofInt_eq_iff {w : ℕ} (hw : 0 < w) (n : ℤ) :
    (BitVec.ofInt w n).toInt = n ↔ Fits w n := by
  obtain ⟨k, rfl⟩ : ∃ k, w = k + 1 := ⟨w - 1, by omega⟩
  rw [BitVec.toInt_ofInt, Fits, Nat.add_sub_cancel]
  have hcast : ((2 ^ (k + 1) : ℕ) : ℤ) = 2 * 2 ^ k := by push_cast; ring
  constructor
  · intro h
    have h1 := @Int.le_bmod n (2 ^ (k + 1)) (by positivity)
    have h2 := @Int.bmod_lt n (2 ^ (k + 1)) (by positivity)
    rw [h, hcast] at h1 h2
    omega
  · rintro ⟨h1, h2⟩
    apply Int.bmod_eq_of_le
    · rw [hcast]; omega
    · rw [hcast]; omega

theorem sub_eq_ofInt (pos id : BitVec 32) :
    pos - id = BitVec.ofInt 32 (pos.toNat - id.toNat) := by
  apply BitVec.eq_of_toInt_eq
  rw [BitVec.toInt_ofInt, BitVec.toInt_sub, BitVec.toInt_eq_toNat_bmod, BitVec.toInt_eq_toNat_bmod]
  simp

theorem setWidth_ofInt (n : ℤ) : (BitVec.ofInt 32 n).setWidth 16 = BitVec.ofInt 16 n := by
  apply BitVec.eq_of_toNat_eq
  rw [BitVec.toNat_setWidth, BitVec.toNat_ofInt, BitVec.toNat_ofInt]
  omega

theorem getLsbD_mask (i : ℕ) (hi : i < 32) : (65535#32).getLsbD i = decide (i < 16) := by
  rw [BitVec.getLsbD_ofNat, show 65535 = 2 ^ 16 - 1 from rfl, Nat.testBit_two_pow_sub_one]
  simp [hi]

theorem low_offsets (jip uip : BitVec 32) : low (offsets jip uip) = (jip.setWidth 16).toInt := by
  rw [low]
  congr 1
  ext i hi
  simp only [offsets, BitVec.getElem_extractLsb', BitVec.getLsbD_or, BitVec.getLsbD_and,
    BitVec.getLsbD_shiftLeft, BitVec.getElem_setWidth, Nat.zero_add]
  rw [getLsbD_mask i (by omega)]
  simp [hi]

/-! ### One branch -/

/-- The distance from a branch to a label. -/
def distance (insnID pos : BitVec 32) : ℤ := pos.toNat - insnID.toNat

/-- The part of the adjustment that is for `WHILE`. -/
def whileAdjustment (store : Store) (insnID pos : BitVec 32) : ℤ :=
  if (store insnID).opcode = .WHILE ∧ (store pos).opcode = .ELSE then 2 else 0

theorem whileDistance_eq (store : Store) (insnID pos : BitVec 32) :
    whileDistance store insnID (pos - insnID) =
      BitVec.ofInt 32 (distance insnID pos + whileAdjustment store insnID pos) := by
  have hpos : insnID + (pos - insnID) = pos := by bv_omega
  rw [whileDistance, hpos, whileAdjustment]
  split
  · rw [sub_eq_ofInt, BitVec.ofInt_add]
    rfl
  · rw [sub_eq_ofInt, Int.add_zero]
    rfl

theorem ofInt_sub_two (n : ℤ) : BitVec.ofInt 32 n - 2 = BitVec.ofInt 32 (n - 2) := by
  rw [show (2 : BitVec 32) = BitVec.ofInt 32 2 from rfl]
  apply BitVec.eq_of_toInt_eq
  simp [BitVec.toInt_sub, BitVec.toInt_ofInt]

theorem ofInt_add_two (n : ℤ) : BitVec.ofInt 32 n + 2 = BitVec.ofInt 32 (n + 2) := by
  rw [BitVec.ofInt_add]
  rfl

theorem ofInt_mul_eight (n : ℤ) : BitVec.ofInt 32 n * 8 = BitVec.ofInt 32 (8 * n) := by
  rw [Int.mul_comm, BitVec.ofInt_mul]
  rfl

/-- A stored offset of 16 bits is the number iff that fits. -/
theorem low_offsets_eq_iff (n : ℤ) (uip : BitVec 32) :
    n = low (offsets (BitVec.ofInt 32 n) uip) ↔ Fits 16 n := by
  rw [low_offsets, setWidth_ofInt, eq_comm, toInt_ofInt_eq_iff (by decide)]

theorem isShort_ofInt (n : ℤ) (h : Fits 32 n) : isShort (BitVec.ofInt 32 n) = true ↔ Fits 16 n := by
  rw [isShort, (toInt_ofInt_eq_iff (by decide) n).mpr h, Bool.and_eq_true, decide_eq_true_iff,
    decide_eq_true_iff, Fits]
  norm_num
  omega

/-- A stored byte offset is the number iff that fits. -/
theorem ofInt_mul_eight_toInt (n : ℤ) :
    8 * n = (BitVec.ofInt 32 n * 8).toInt ↔ Fits 32 (8 * n) := by
  rw [ofInt_mul_eight, eq_comm, toInt_ofInt_eq_iff (by decide)]

theorem Fits.mono {n : ℤ} {v w : ℕ} (h : Fits v n) (hvw : v ≤ w) : Fits w n := by
  have hpow : (2 : ℤ) ^ (v - 1) ≤ 2 ^ (w - 1) :=
    pow_le_pow_right₀ (by norm_num) (by omega)
  exact ⟨by linarith [h.1], by linarith [h.2]⟩

theorem jumps_of_same {gen : Generation} {before after : Store} {insnID : BitVec 32} {target : ℤ}
    (h : (after insnID).predicate_inverse = (before insnID).predicate_inverse) :
    Jumps gen before after insnID target ↔ Goes gen insnID.toNat (after insnID) target := by
  rw [Jumps, if_pos h]

section One

variable {store : Store} {insnID pos : BitVec 32}

/-- A branch of Gen7 or Gen7.5 that is no jump. -/
theorem goes_offsets {gen : Generation} (hgen : gen ≠ .gen8) {insn : Insn}
    (hop : insn.opcode ∈ [.BRD, .BRC, .IF, .ELSE, .ENDIF, .WHILE]) {n : ℤ} (uip : BitVec 32)
    (hbits : insn.bits3 = offsets (BitVec.ofInt 32 n) uip) {base target : ℤ}
    (ht : target = base + n) : Goes gen base insn target ↔ Fits 16 n := by
  have hgoes : Goes gen base insn target ↔ target = base + low insn.bits3 := by
    cases gen <;> first | exact absurd rfl hgen | skip
    all_goals
      simp only [List.mem_cons, List.not_mem_nil, or_false] at hop
      rcases hop with h | h | h | h | h | h <;> simp [Goes, h]
  rw [hgoes, hbits, ht, Int.add_right_inj, low_offsets_eq_iff]

/-- A branch of Gen8 that is no jump. -/
theorem goes_bytes {insn : Insn}
    (hop : insn.opcode ∈ [.BRD, .BRC, .IF, .ELSE, .ENDIF, .WHILE]) {n : ℤ}
    (hbits : insn.bits3 = BitVec.ofInt 32 n * 8) {base target : ℤ} (ht : target = base + n) :
    Goes .gen8 base insn target ↔ Fits 32 (8 * n) := by
  have hgoes : Goes .gen8 base insn target ↔ 8 * (target - base) = insn.bits3.toInt := by
    simp only [List.mem_cons, List.not_mem_nil, or_false] at hop
    rcases hop with h | h | h | h | h | h <;> simp [Goes, h]
  rw [hgoes, hbits, ht, add_sub_cancel_left, ofInt_mul_eight_toInt]

/-- A jump of Gen7.5 or Gen8. -/
theorem goes_jump {gen : Generation} (hgen : gen ≠ .gen7) {insn : Insn}
    (hop : insn.opcode = .JMPI) {n : ℤ}
    (hbits : insn.bits3 = (BitVec.ofInt 32 n - 2) * 8) {base target : ℤ} (ht : target = base + n) :
    Goes gen base insn target ↔ Fits 32 (8 * (n - 2)) := by
  have hgoes : Goes gen base insn target ↔ 8 * (target - (base + 2)) = insn.bits3.toInt := by
    cases gen <;> first | exact absurd rfl hgen | simp [Goes, hop]
  rw [hgoes, hbits, ht, ofInt_sub_two, ← ofInt_mul_eight_toInt]
  ring_nf

theorem adjustment_jump {gen : Generation} (h : (store insnID).opcode = .JMPI) :
    adjustment gen store insnID pos = 0 := by
  simp [adjustment, h]

theorem whileAdjustment_jump (h : (store insnID).opcode = .JMPI) :
    whileAdjustment store insnID pos = 0 := by
  simp [whileAdjustment, h]

/-- The distance with the adjustment that `patchJMPI` makes itself. -/
theorem target_eq {gen : Generation} (store : Store) (insnID pos : BitVec 32) :
    (pos.toNat : ℤ) + adjustment gen store insnID pos =
      insnID.toNat + (distance insnID pos + adjustment gen store insnID pos) := by
  rw [distance]
  ring

/-- The distance that has to fit. -/
def reach (gen : Generation) (store : Store) (insnID pos : BitVec 32) : ℤ :=
  distance insnID pos + adjustment gen store insnID pos

theorem fitsJump_other {gen : Generation} (h : (store insnID).opcode ≠ .JMPI) :
    FitsJump gen store insnID pos ↔
      if gen = .gen8 then Fits 32 (8 * reach gen store insnID pos)
      else Fits 16 (reach gen store insnID pos) := by
  cases gen <;> simp [FitsJump, h, reach, distance]

theorem fitsJump_jump {gen : Generation} (hgen : gen ≠ .gen7)
    (h : (store insnID).opcode = .JMPI) :
    FitsJump gen store insnID pos ↔ Fits 32 (8 * (reach gen store insnID pos - 2)) := by
  cases gen <;> first | exact absurd rfl hgen | simp [FitsJump, h, reach, distance]

theorem jumps_gen75 (hop : (store insnID).opcode ∈ [.JMPI, .BRD, .BRC, .IF, .ELSE, .ENDIF, .WHILE])
    (uip : BitVec 32) :
    Jumps .gen75 store (patchJMPI .gen75 store insnID (pos - insnID) uip) insnID
      (pos.toNat + adjustment .gen75 store insnID pos) ↔ FitsJump .gen75 store insnID pos := by
  have hdist : whileDistance store insnID (pos - insnID) =
      BitVec.ofInt 32 (reach .gen75 store insnID pos) := by
    simp [whileDistance_eq, reach, adjustment, whileAdjustment]
  rw [jumps_of_same (by simp [patchJMPI, patchJMPI75])]
  by_cases hj : (store insnID).opcode = .JMPI
  · rw [fitsJump_jump (by decide) hj]
    exact goes_jump (by decide) (by simpa [patchJMPI, patchJMPI75] using hj)
      (by simp [patchJMPI, patchJMPI75, hj, hdist]) (target_eq _ _ _)
  · have hop' := (List.mem_cons.mp hop).resolve_left hj
    rw [fitsJump_other hj, if_neg (by decide)]
    exact goes_offsets (by decide) (by simpa [patchJMPI, patchJMPI75] using hop') uip
      (by simp [patchJMPI, patchJMPI75, hj, hdist]) (target_eq _ _ _)

theorem jumps_gen8 (hop : (store insnID).opcode ∈ [.JMPI, .BRD, .BRC, .IF, .ELSE, .ENDIF, .WHILE])
    (uip : BitVec 32) :
    Jumps .gen8 store (patchJMPI .gen8 store insnID (pos - insnID) uip) insnID
      (pos.toNat + adjustment .gen8 store insnID pos) ↔ FitsJump .gen8 store insnID pos := by
  have hdist : whileDistance store insnID (pos - insnID) =
      BitVec.ofInt 32 (reach .gen8 store insnID pos) := by
    simp [whileDistance_eq, reach, adjustment, whileAdjustment]
  have hop8 : (patchJMPI .gen8 store insnID (pos - insnID) uip insnID).opcode =
      (store insnID).opcode := by
    simp only [patchJMPI, patchJMPI8, Function.update_self]
    split_ifs <;> rfl
  have hinv : (patchJMPI .gen8 store insnID (pos - insnID) uip insnID).predicate_inverse =
      (store insnID).predicate_inverse := by
    simp only [patchJMPI, patchJMPI8, Function.update_self]
    split_ifs <;> rfl
  rw [jumps_of_same hinv]
  by_cases hj : (store insnID).opcode = .JMPI
  · rw [fitsJump_jump (by decide) hj]
    exact goes_jump (by decide) (by rw [hop8, hj])
      (by simp [patchJMPI, patchJMPI8, hj, hdist]) (target_eq _ _ _)
  · have hop' := (List.mem_cons.mp hop).resolve_left hj
    rw [fitsJump_other hj, if_pos rfl]
    refine goes_bytes (by rw [hop8]; exact hop') ?_ (target_eq _ _ _)
    simp only [patchJMPI, patchJMPI8, Function.update_self, hj, if_false, hdist, reach]
    split_ifs <;> rfl

/-- A short jump of Gen7. -/
theorem goes_short {insn : Insn} (hop : insn.opcode = .JMPI) {n : ℤ} (uip : BitVec 32)
    (hbits : insn.bits3 = offsets (BitVec.ofInt 32 n - 2) uip) {base target : ℤ}
    (ht : target = base + n) : Goes .gen7 base insn target ↔ Fits 16 (n - 2) := by
  have hgoes : Goes .gen7 base insn target ↔ target = base + 2 + low insn.bits3 := by
    simp [Goes, hop]
  rw [hgoes, hbits, ht, ofInt_sub_two, ← low_offsets_eq_iff (n - 2) uip]
  constructor <;> intro h <;> linarith

/-- An addition to the instruction pointer. -/
theorem goes_add {gen : Generation} {insn : Insn} (hop : insn.opcode = .ADD)
    (hip : insn.ip = true) {n : ℤ} (hbits : insn.bits3 = BitVec.ofInt 32 n * 8)
    {base target : ℤ} (ht : target = base + n) :
    Goes gen base insn target ↔ Fits 32 (8 * n) := by
  have hgoes : Goes gen base insn target ↔ 8 * (target - base) = insn.bits3.toInt := by
    simp [Goes, hop, hip]
  rw [hgoes, hbits, ht, add_sub_cancel_left, ofInt_mul_eight_toInt]

/-- The range of a jump of Gen7, by the form that is taken. -/
theorem fitsJump_gen7 (hj : (store insnID).opcode = .JMPI) :
    FitsJump .gen7 store insnID pos ↔
      if isShort (BitVec.ofInt 32 (distance insnID pos)) then Fits 16 (distance insnID pos - 2)
      else Fits 32 (8 * if (store insnID).predicated then distance insnID pos - 2
        else distance insnID pos) := by
  have hreach : FitsJump .gen7 store insnID pos ↔
      (Fits 16 (distance insnID pos) ∧ Fits 16 (distance insnID pos - 2)) ∨
        (¬ Fits 16 (distance insnID pos) ∧ Fits 32 (8 *
          if (store insnID).predicated then distance insnID pos - 2 else distance insnID pos)) := by
    simp [FitsJump, hj, adjustment_jump hj, distance]
  rw [hreach]
  generalize distance insnID pos = n
  by_cases h32 : Fits 32 n
  · have hshort := isShort_ofInt n h32
    by_cases h16 : Fits 16 n
    · simp [h16, hshort.mpr h16]
    · have : ¬ isShort (BitVec.ofInt 32 n) = true := fun h => h16 (hshort.mp h)
      simp [h16, this]
  · -- a distance of more than 32 bits fits in no form
    have h16 : ¬ Fits 16 n := fun h => h32 (h.mono (by decide))
    have h16' : ¬ Fits 16 (n - 2) := by
      simp only [Fits] at h32 ⊢
      norm_num at h32 ⊢
      omega
    have h8 : ¬ Fits 32 (8 * if (store insnID).predicated then n - 2 else n) := by
      simp only [Fits] at h32 ⊢
      norm_num at h32 ⊢
      split <;> omega
    constructor
    · rintro (⟨h, -⟩ | ⟨-, h⟩)
      · exact absurd h h16
      · exact absurd h h8
    · intro h
      split at h
      · exact absurd h h16'
      · exact absurd h h8

theorem jumps_gen7 (hop : (store insnID).opcode ∈ [.JMPI, .BRD, .BRC, .IF, .ELSE, .ENDIF, .WHILE])
    (uip : BitVec 32) :
    Jumps .gen7 store (patchJMPI .gen7 store insnID (pos - insnID) uip) insnID
      (pos.toNat + adjustment .gen7 store insnID pos) ↔ FitsJump .gen7 store insnID pos := by
  by_cases hj : (store insnID).opcode = .JMPI
  · have hdist : whileDistance store insnID (pos - insnID) =
        BitVec.ofInt 32 (distance insnID pos) := by
      rw [whileDistance_eq, whileAdjustment_jump hj, Int.add_zero]
    have htarget : (pos.toNat : ℤ) + adjustment .gen7 store insnID pos =
        insnID.toNat + distance insnID pos := by
      rw [adjustment_jump hj, distance]
      ring
    rw [fitsJump_gen7 hj]
    by_cases hshort : isShort (BitVec.ofInt 32 (distance insnID pos)) = true
    · rw [if_pos hshort, jumps_of_same (by simp [patchJMPI, patchJMPI7, hdist, hshort])]
      exact goes_short (by simpa [patchJMPI, patchJMPI7, hdist, hshort] using hj) uip
        (by simp [patchJMPI, patchJMPI7, hdist, hshort, hj]) htarget
    · rw [if_neg hshort]
      by_cases hp : (store insnID).predicated = true
      · -- the two instructions of the inverted form
        have hne : insnID + 2 ≠ insnID := by bv_omega
        have hafter : patchJMPI .gen7 store insnID (pos - insnID) uip =
            Function.update (Function.update store insnID { store insnID with
              predicate_inverse := !(store insnID).predicate_inverse, bits3 := 2 }) (insnID + 2)
              { store (insnID + 2) with
                predicated := false, opcode := .ADD, ip := true
                bits3 := (BitVec.ofInt 32 (distance insnID pos) - 2) * 8 } := by
          simp [patchJMPI, patchJMPI7, hdist, hshort, hj, hp]
        have hid : patchJMPI .gen7 store insnID (pos - insnID) uip insnID = { store insnID with
            predicate_inverse := !(store insnID).predicate_inverse, bits3 := 2 } := by
          rw [hafter, Function.update_of_ne hne.symm, Function.update_self]
        have hslot : patchJMPI .gen7 store insnID (pos - insnID) uip (insnID + 2) =
            { store (insnID + 2) with
              predicated := false, opcode := .ADD, ip := true
              bits3 := (BitVec.ofInt 32 (distance insnID pos) - 2) * 8 } := by
          rw [hafter, Function.update_self]
        rw [if_pos hp, Jumps, if_neg (by rw [hid]; simp), hid, hslot]
        have hskip : Goes .gen7 insnID.toNat { store insnID with
            predicate_inverse := !(store insnID).predicate_inverse, bits3 := 2 }
            (insnID.toNat + 4) := by
          have h2 : low 2 = 2 := by decide
          simp only [Goes, hj, h2]
          ring
        have hadd := @goes_add .gen7 { store (insnID + 2) with
            predicated := false, opcode := .ADD, ip := true
            bits3 := (BitVec.ofInt 32 (distance insnID pos) - 2) * 8 } rfl rfl
          (distance insnID pos - 2) (by rw [ofInt_sub_two]) (insnID.toNat + 2)
          (pos.toNat + adjustment .gen7 store insnID pos) (by rw [htarget]; ring)
        rw [← hadd]
        simp only [hskip, true_and]
      · rw [if_neg hp, jumps_of_same (by simp [patchJMPI, patchJMPI7, hdist, hshort, hj, hp])]
        exact goes_add (by simp [patchJMPI, patchJMPI7, hdist, hshort, hj, hp])
          (by simp [patchJMPI, patchJMPI7, hdist, hshort, hj, hp])
          (by simp [patchJMPI, patchJMPI7, hdist, hshort, hj, hp]) htarget
  · have hop' := (List.mem_cons.mp hop).resolve_left hj
    have hafter : patchJMPI .gen7 store insnID (pos - insnID) uip insnID = { store insnID with
        bits3 := offsets (BitVec.ofInt 32 (reach .gen7 store insnID pos)) uip } := by
      simp only [patchJMPI, patchJMPI7, ne_eq, hj, not_false_eq_true, true_or, if_true,
        Function.update_self, whileDistance_eq]
      by_cases he : (store insnID).opcode = .ENDIF
      · have : reach .gen7 store insnID pos = distance insnID pos + 2 := by
          simp [reach, adjustment, he]
        rw [this, show whileAdjustment store insnID pos = 0 by simp [whileAdjustment, he],
          Int.add_zero, ← ofInt_add_two]
        simp only [he]
      · have : reach .gen7 store insnID pos =
            distance insnID pos + whileAdjustment store insnID pos := by
          simp [reach, adjustment, whileAdjustment, he]
        rw [this]
        split <;> first | exact absurd ‹_› hj | exact absurd ‹_› he | rfl
    rw [jumps_of_same (by rw [hafter]), fitsJump_other hj, if_neg (by decide)]
    exact goes_offsets (by decide) (by rw [hafter]; exact hop') uip (by rw [hafter])
      (target_eq _ _ _)
/-- On Gen8 both offsets of an `ELSE` are the same. -/
theorem goesUip_else (hop : (store insnID).opcode = .ELSE) (uip : BitVec 32)
    (h : FitsJump .gen8 store insnID pos) :
    GoesUip .gen8 insnID.toNat (patchJMPI .gen8 store insnID (pos - insnID) uip insnID)
      pos.toNat := by
  have hreach : reach .gen8 store insnID pos = distance insnID pos := by
    simp [reach, adjustment, hop]
  have hdist : whileDistance store insnID (pos - insnID) =
      BitVec.ofInt 32 (distance insnID pos) := by
    simp [whileDistance_eq, whileAdjustment, hop]
  rw [fitsJump_other (by simp [hop]), if_pos rfl, hreach] at h
  simp only [GoesUip, patchJMPI, patchJMPI8, Function.update_self, hop, hdist, if_true, or_true]
  exact (ofInt_mul_eight_toInt _).mpr h

theorem goesUip_gen8 (hop : (store insnID).opcode ∈ [.IF, .BRC]) (jip : BitVec 32) :
    GoesUip .gen8 insnID.toNat (patchJMPI .gen8 store insnID jip (pos - insnID) insnID) pos.toNat ↔
      FitsUip store insnID pos := by
  simp only [List.mem_cons, List.not_mem_nil, or_false] at hop
  rcases hop with h | h
  · simp only [GoesUip, patchJMPI, patchJMPI8, Function.update_self, h, reduceCtorEq, if_false,
      or_false, if_true, FitsUip]
    rw [sub_eq_ofInt, ofInt_mul_eight_toInt]
  · simp [GoesUip, patchJMPI, patchJMPI8, h, FitsUip, eq_comm]

end One

end Patch

end Backend
