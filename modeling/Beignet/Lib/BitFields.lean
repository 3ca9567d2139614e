/-
Bit fields of a word.

A field is a range of bits.  `get` reads it as a number of the width of the word, `set`
writes the low bits of a value into it, as the assignment to a bit field does.

* `get_set_self`, `get_set_of_disjoint` — what is read after a field was written;
* `get_assign`, `get_assign_of_apart` — what is read after several assignments;
* `get_shiftLeft`, `get_or`, `get_and_low` — what is read where words were combined by hand;
* `Holds.unique` — fields that cover a word determine it.
-/
import Mathlib

namespace BitFields

variable {w : ℕ}

/-- The bits from `lo` on. -/
structure Field where
  lo : ℕ
  width : ℕ

/-- The low bits of a word. -/
def low (w k : ℕ) : BitVec w := BitVec.ofNat w (2 ^ k - 1)

def get (f : Field) (x : BitVec w) : BitVec w := (x >>> f.lo) &&& low w f.width

def set (f : Field) (v x : BitVec w) : BitVec w :=
  (x &&& ~~~(low w f.width <<< f.lo)) ||| ((v &&& low w f.width) <<< f.lo)

/-! ### Bits -/

theorem getLsbD_low (k i : ℕ) : (low w k).getLsbD i = (decide (i < w) && decide (i < k)) := by
  rw [low, BitVec.getLsbD_ofNat, Nat.testBit_two_pow_sub_one]

theorem getLsbD_get (f : Field) (x : BitVec w) (i : ℕ) :
    (get f x).getLsbD i = (decide (i < f.width) && x.getLsbD (f.lo + i)) := by
  rw [get, BitVec.getLsbD_and, BitVec.getLsbD_ushiftRight, getLsbD_low]
  by_cases hi : i < w
  · simp [hi, Bool.and_comm]
  · simp [hi, BitVec.getLsbD_of_ge x (f.lo + i) (by omega)]

theorem getLsbD_set (f : Field) (v x : BitVec w) (i : ℕ) (hi : i < w) :
    (set f v x).getLsbD i =
      if f.lo ≤ i ∧ i < f.lo + f.width then v.getLsbD (i - f.lo) else x.getLsbD i := by
  simp only [set, BitVec.getLsbD_or, BitVec.getLsbD_and, BitVec.getLsbD_not,
    BitVec.getLsbD_shiftLeft, getLsbD_low, hi, decide_true, Bool.true_and]
  by_cases hlo : f.lo ≤ i
  · have hw : i - f.lo < w := by omega
    by_cases hup : i < f.lo + f.width
    · have : i - f.lo < f.width := by omega
      simp [hlo, hup, hw, this, Nat.not_lt.mpr hlo]
    · have : ¬ i - f.lo < f.width := by omega
      simp [hlo, hup, hw, this, Nat.not_lt.mpr hlo]
  · simp [hlo, Nat.lt_of_not_le hlo]

/-! ### Reading after writing -/

/-- A value as wide as the field. -/
def truncate (k : ℕ) (v : BitVec w) : BitVec w := get ⟨0, k⟩ v

theorem getLsbD_truncate (k : ℕ) (v : BitVec w) (i : ℕ) :
    (truncate k v).getLsbD i = (decide (i < k) && v.getLsbD i) := by
  rw [truncate, getLsbD_get, Nat.zero_add]

theorem toNat_truncate {k : ℕ} (v : BitVec w) (hk : k ≤ w) :
    (truncate k v).toNat = v.toNat % 2 ^ k := by
  have hlow : 2 ^ k - 1 < 2 ^ w := by
    have := Nat.pow_le_pow_right (n := 2) (by decide) hk
    have := Nat.two_pow_pos k
    omega
  rw [truncate, get, BitVec.toNat_and, BitVec.toNat_ushiftRight, low, BitVec.toNat_ofNat,
    Nat.mod_eq_of_lt hlow, Nat.and_two_pow_sub_one_eq_mod]
  rfl

/-- The fields are given with their places, so that two names of one field will do. -/
theorem get_set_self (f g : Field) (v x : BitVec w)
    (h : f.lo = g.lo ∧ f.width = g.width ∧ f.lo + f.width ≤ w) :
    get f (set g v x) = truncate f.width v := by
  refine BitVec.eq_of_getLsbD_eq fun i hi => ?_
  rw [getLsbD_get, getLsbD_truncate]
  by_cases hw : i < f.width
  · rw [getLsbD_set g v x (f.lo + i) (by omega), if_pos (by omega), ← h.1,
      Nat.add_sub_cancel_left]
  · simp [hw]

theorem get_set_of_disjoint (f g : Field) (v x : BitVec w) (h : f.lo + f.width ≤ w)
    (hdisj : f.lo + f.width ≤ g.lo ∨ g.lo + g.width ≤ f.lo) : get f (set g v x) = get f x := by
  refine BitVec.eq_of_getLsbD_eq fun i hi => ?_
  rw [getLsbD_get, getLsbD_get]
  by_cases hw : i < f.width
  · rw [getLsbD_set g v x (f.lo + i) (by omega), if_neg (by omega)]
  · simp [hw]

theorem truncate_truncate {j k : ℕ} (h : j ≤ k) (v : BitVec w) :
    truncate j (truncate k v) = truncate j v := by
  refine BitVec.eq_of_getLsbD_eq fun i _ => ?_
  rw [getLsbD_truncate, getLsbD_truncate, getLsbD_truncate]
  by_cases hi : i < j
  · simp [hi, Nat.lt_of_lt_of_le hi h]
  · simp [hi]

theorem truncate_truncate_of_ge {j k : ℕ} (h : k ≤ j) (v : BitVec w) :
    truncate j (truncate k v) = truncate k v := by
  refine BitVec.eq_of_getLsbD_eq fun i _ => ?_
  rw [getLsbD_truncate, getLsbD_truncate]
  by_cases hi : i < k
  · simp [hi, Nat.lt_of_lt_of_le hi h]
  · simp [hi]

theorem truncate_shiftRight {j k m : ℕ} (h : m + j ≤ k) (v : BitVec w) :
    truncate j (truncate k v >>> m) = truncate j (v >>> m) := by
  refine BitVec.eq_of_getLsbD_eq fun i _ => ?_
  rw [getLsbD_truncate, getLsbD_truncate, BitVec.getLsbD_ushiftRight, BitVec.getLsbD_ushiftRight,
    getLsbD_truncate]
  by_cases hi : i < j
  · simp [hi, show m + i < k by omega]
  · simp [hi]

/-- A field of a value that is as wide as another field. -/
theorem get_truncate (f : Field) (k : ℕ) (v : BitVec w) (h : f.lo + f.width ≤ k) :
    get f (truncate k v) = get f v := by
  refine BitVec.eq_of_getLsbD_eq fun i _ => ?_
  rw [getLsbD_get, getLsbD_get, getLsbD_truncate]
  by_cases hi : i < f.width
  · simp [show f.lo + i < k by omega]
  · simp [hi]

theorem get_truncate_of_ge (f : Field) (k : ℕ) (v : BitVec w) (h : k ≤ f.lo) :
    get f (truncate k v) = 0 := by
  refine BitVec.eq_of_getLsbD_eq fun i _ => ?_
  rw [getLsbD_get, getLsbD_truncate]
  simp [show ¬ f.lo + i < k by omega]

@[simp] theorem get_zero (f : Field) : get f (0 : BitVec w) = 0 := by
  simp [get]

theorem or_zero (x : BitVec w) : x ||| 0 = x := BitVec.or_zero

theorem zero_or (x : BitVec w) : 0 ||| x = x := BitVec.zero_or

theorem get_or (f : Field) (x y : BitVec w) : get f (x ||| y) = get f x ||| get f y := by
  refine BitVec.eq_of_getLsbD_eq fun i _ => ?_
  simp only [getLsbD_get, BitVec.getLsbD_or, Bool.and_or_distrib_left]

/-- A field of a shifted word. -/
theorem get_shiftLeft (f : Field) (x : BitVec w) (k : ℕ) (h : f.lo + f.width ≤ w)
    (hk : k ≤ f.lo) : get f (x <<< k) = get ⟨f.lo - k, f.width⟩ x := by
  refine BitVec.eq_of_getLsbD_eq fun i hi => ?_
  rw [getLsbD_get, getLsbD_get, BitVec.getLsbD_shiftLeft]
  by_cases hw : i < f.width
  · have h1 : f.lo + i < w := by omega
    have h2 : ¬ f.lo + i < k := by omega
    have h3 : f.lo + i - k = f.lo - k + i := by omega
    simp [h1, h2, h3]
  · simp [hw]

/-- A field below the bits that come from the shift. -/
theorem get_shiftLeft_of_lt (f : Field) (x : BitVec w) (k : ℕ) (hk : f.lo + f.width ≤ k) :
    get f (x <<< k) = 0 := by
  refine BitVec.eq_of_getLsbD_eq fun i hi => ?_
  rw [getLsbD_get, BitVec.getLsbD_shiftLeft]
  by_cases hw : i < f.width
  · have : f.lo + i < k := by omega
    simp [this]
  · simp [hw]

/-- A field of the low bits. -/
theorem get_and_low (f : Field) (x : BitVec w) (k : ℕ) (hk : f.lo + f.width ≤ k) :
    get f (x &&& low w k) = get f x := by
  refine BitVec.eq_of_getLsbD_eq fun i hi => ?_
  rw [getLsbD_get, getLsbD_get, BitVec.getLsbD_and, getLsbD_low]
  by_cases hw : i < f.width
  · have hk' : f.lo + i < k := by omega
    by_cases hlt : f.lo + i < w
    · simp [hk', hlt]
    · simp [BitVec.getLsbD_of_ge x (f.lo + i) (by omega)]
  · simp [hw]

theorem get_and_low_of_ge (f : Field) (x : BitVec w) (k : ℕ) (hk : k ≤ f.lo) :
    get f (x &&& low w k) = 0 := by
  refine BitVec.eq_of_getLsbD_eq fun i _ => ?_
  rw [getLsbD_get, BitVec.getLsbD_and, getLsbD_low]
  simp [show ¬ f.lo + i < k by omega]

/-- A field inside a field of zeros. -/
theorem get_eq_zero_of_subfield {f g : Field} {x : BitVec w} (h : get g x = 0)
    (hsub : g.lo ≤ f.lo ∧ f.lo + f.width ≤ g.lo + g.width) : get f x = 0 := by
  refine BitVec.eq_of_getLsbD_eq fun i _ => ?_
  rw [getLsbD_get]
  by_cases hi : i < f.width
  · have hbit := congrArg (fun z => z.getLsbD (f.lo - g.lo + i)) h
    simp only [getLsbD_get, show g.lo + (f.lo - g.lo + i) = f.lo + i by omega,
      show f.lo - g.lo + i < g.width by omega, decide_true, Bool.true_and] at hbit
    simpa [hi] using hbit
  · simp [hi]

/-! ### Several assignments -/

/-- Fields without a common bit. -/
def Apart (f g : Field) : Prop := f.lo + f.width ≤ g.lo ∨ g.lo + g.width ≤ f.lo

instance (f g : Field) : Decidable (Apart f g) := inferInstanceAs (Decidable (_ ∨ _))

/-- Assignments to fields, one after another. -/
def assign (ws : List (Field × BitVec w)) (x : BitVec w) : BitVec w :=
  ws.foldl (fun x p => set p.1 p.2 x) x

theorem get_assign_of_apart {f : Field} {ws : List (Field × BitVec w)} {x : BitVec w}
    (hf : f.lo + f.width ≤ w) (h : ∀ g ∈ ws.map Prod.fst, Apart f g) :
    get f (assign ws x) = get f x := by
  induction ws generalizing x with
  | nil => rfl
  | cons p ws ih =>
    show get f (assign ws (set p.1 p.2 x)) = get f x
    rw [ih fun g hg => h g (List.mem_cons_of_mem _ hg)]
    exact get_set_of_disjoint _ _ _ _ hf (h p.1 List.mem_cons_self)

/-- Each field keeps what it was assigned. -/
theorem get_assign {f : Field} {v : BitVec w} {ws : List (Field × BitVec w)} {x : BitVec w}
    (hf : f.lo + f.width ≤ w) (hws : (ws.map Prod.fst).Pairwise Apart) (h : (f, v) ∈ ws) :
    get f (assign ws x) = truncate f.width v := by
  induction ws generalizing x with
  | nil => exact absurd h List.not_mem_nil
  | cons p ws ih =>
    show get f (assign ws (set p.1 p.2 x)) = truncate f.width v
    rw [List.map_cons, List.pairwise_cons] at hws
    rcases List.mem_cons.mp h with rfl | h
    · rw [get_assign_of_apart hf hws.1]
      exact get_set_self _ _ _ _ ⟨rfl, rfl, hf⟩
    · exact ih hws.2 h

/-! ### Words from their fields -/

/-- Every bit of the word lies in one of the fields. -/
def Covers (w : ℕ) (fields : List Field) : Prop :=
  ∀ i < w, ∃ f ∈ fields, f.lo ≤ i ∧ i < f.lo + f.width

instance (w : ℕ) (fields : List Field) : Decidable (Covers w fields) :=
  inferInstanceAs (Decidable (∀ i < w, ∃ f ∈ fields, f.lo ≤ i ∧ i < f.lo + f.width))

/-- The word has these values in its fields. -/
def Holds (fields : List (Field × BitVec w)) (x : BitVec w) : Prop :=
  ∀ p ∈ fields, get p.1 x = p.2

theorem holds_nil (x : BitVec w) : Holds [] x ↔ True :=
  iff_true_intro fun _ h => absurd h List.not_mem_nil

theorem holds_cons (f : Field) (v : BitVec w) (fields : List (Field × BitVec w)) (x : BitVec w) :
    Holds ((f, v) :: fields) x ↔ get f x = v ∧ Holds fields x :=
  List.forall_mem_cons

/-- Fields that cover a word determine it. -/
theorem Holds.unique {fields : List (Field × BitVec w)} (hcover : Covers w (fields.map Prod.fst))
    {x y : BitVec w} (hx : Holds fields x) (hy : Holds fields y) : x = y := by
  refine BitVec.eq_of_getLsbD_eq fun i hi => ?_
  obtain ⟨f, hf, hlo, hup⟩ := hcover i hi
  obtain ⟨p, hp, rfl⟩ := List.mem_map.mp hf
  have hbit := congrArg (fun z => z.getLsbD (i - p.1.lo)) ((hx p hp).trans (hy p hp).symm)
  simp only [getLsbD_get] at hbit
  have hwidth : i - p.1.lo < p.1.width := by omega
  rwa [Nat.add_sub_cancel' hlo, decide_eq_true hwidth, Bool.true_and, Bool.true_and] at hbit

end BitFields
