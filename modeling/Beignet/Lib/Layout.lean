/-
Segments placed one after the other, each on a multiple of its alignment.

* `roundUp_le_of_dvd` — the next multiple is the least one;
* `Stacked.pairwise` — stacked segments end before the next one starts;
* `Stacked.finish_le` — they end before their last end.
-/
import Mathlib

namespace Layout

/-! ### The next multiple -/

section RoundUp

variable {a a' b : ℕ}

def roundUp (a b : ℕ) : ℕ := if a % b ≠ 0 then a + b - a % b else a

theorem le_roundUp (hb : 0 < b) : a ≤ roundUp a b := by
  have hlt := Nat.mod_lt a hb
  unfold roundUp
  split_ifs <;> omega

theorem dvd_roundUp (hb : 0 < b) : b ∣ roundUp a b := by
  have hlt := Nat.mod_lt a hb
  have hdiv := Nat.div_add_mod a b
  unfold roundUp
  split_ifs with h
  · have hsum : a + b - a % b = b * (a / b) + b := by omega
    rw [hsum]
    exact Nat.dvd_add (Nat.dvd_mul_right b _) (Nat.dvd_refl b)
  · exact Nat.dvd_of_mod_eq_zero (not_not.mp h)

theorem roundUp_lt (hb : 0 < b) : roundUp a b < a + b := by
  unfold roundUp
  split_ifs <;> omega

/-- No multiple lies in between. -/
theorem roundUp_le_of_dvd (hb : 0 < b) (hle : a ≤ a') (hdvd : b ∣ a') : roundUp a b ≤ a' := by
  by_contra hlt
  -- the difference is a multiple of `b`, and less than `b`
  have hsub : b ∣ roundUp a b - a' := Nat.dvd_sub (dvd_roundUp hb) hdvd
  have hge := Nat.le_of_dvd (by omega) hsub
  have := roundUp_lt (a := a) hb
  omega

theorem roundUp_mono (hb : 0 < b) (hle : a ≤ a') : roundUp a b ≤ roundUp a' b :=
  roundUp_le_of_dvd hb (hle.trans (le_roundUp hb)) (dvd_roundUp hb)

/-- A modulus that is a multiple of the alignment. -/
theorem roundUp_mod {m : ℕ} (hb : 0 < b) (hdvd : b ∣ m) :
    roundUp (a % m) b % m = roundUp a b % m := by
  have hmod : a % m % b = a % b := Nat.mod_mod_of_dvd a hdvd
  have hlt := Nat.mod_lt a hb
  unfold roundUp
  rw [hmod]
  split_ifs with h
  · have hsum : ∀ n, n + b - a % b = n + (b - a % b) := fun n => by omega
    rw [hsum, hsum, Nat.mod_add_mod]
  · exact Nat.mod_mod a m

end RoundUp

/-! ### Segments -/

structure Segment where
  offset : ℕ
  size : ℕ

namespace Segment

/-- The first place behind the segment. -/
def finish (s : Segment) : ℕ := s.offset + s.size

def bytes (s : Segment) : Set ℕ := Set.Ico s.offset s.finish

end Segment

/-- Each segment starts at or behind the end of the one before, the first at or behind `lo`. -/
def Stacked : ℕ → List Segment → Prop
  | _, [] => True
  | lo, s :: ss => lo ≤ s.offset ∧ Stacked s.finish ss

/-- The end of the last segment. -/
def finish : ℕ → List Segment → ℕ
  | lo, [] => lo
  | _, s :: ss => finish s.finish ss

section Stacked

variable {lo : ℕ} {ss : List Segment}

theorem Stacked.mono {lo' : ℕ} (h : Stacked lo ss) (hle : lo' ≤ lo) : Stacked lo' ss := by
  cases ss with
  | nil => trivial
  | cons s ss => exact ⟨hle.trans h.1, h.2⟩

theorem Stacked.le_offset (h : Stacked lo ss) : ∀ s ∈ ss, lo ≤ s.offset := by
  induction ss generalizing lo with
  | nil => exact fun s hs => absurd hs List.not_mem_nil
  | cons s ss ih =>
    obtain ⟨hle, hss⟩ := h
    intro t ht
    rcases List.mem_cons.mp ht with rfl | ht
    · exact hle
    · exact hle.trans ((Nat.le_add_right _ _).trans (ih hss t ht))

theorem Stacked.le_finish (h : Stacked lo ss) : lo ≤ finish lo ss := by
  induction ss generalizing lo with
  | nil => exact le_rfl
  | cons s ss ih => exact h.1.trans ((Nat.le_add_right _ _).trans (ih h.2))

theorem Stacked.finish_le (h : Stacked lo ss) : ∀ s ∈ ss, s.finish ≤ finish lo ss := by
  induction ss generalizing lo with
  | nil => exact fun s hs => absurd hs List.not_mem_nil
  | cons s ss ih =>
    intro t ht
    rcases List.mem_cons.mp ht with rfl | ht
    · exact h.2.le_finish
    · exact ih h.2 t ht

theorem Stacked.pairwise (h : Stacked lo ss) : ss.Pairwise fun s t => s.finish ≤ t.offset := by
  induction ss generalizing lo with
  | nil => exact List.Pairwise.nil
  | cons s ss ih => exact List.pairwise_cons.mpr ⟨h.2.le_offset, ih h.2⟩

/-- The last end is that of a segment, if there is one. -/
theorem finish_mem (lo : ℕ) (ss : List Segment) :
    finish lo ss = lo ∨ ∃ s ∈ ss, finish lo ss = s.finish := by
  induction ss generalizing lo with
  | nil => exact .inl rfl
  | cons s ss ih =>
    rcases ih s.finish with h | ⟨t, ht, h⟩
    · exact .inr ⟨s, List.mem_cons_self, h⟩
    · exact .inr ⟨t, List.mem_cons_of_mem _ ht, h⟩

theorem Segment.disjoint_bytes {s t : Segment} (h : s.finish ≤ t.offset) :
    Disjoint s.bytes t.bytes :=
  Set.disjoint_left.mpr fun _ hs ht => absurd (hs.2.trans_le (h.trans ht.1)) (lt_irrefl _)

end Stacked

end Layout
