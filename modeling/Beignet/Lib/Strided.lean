/-
Copies between two memories in strides.

A copy takes two addresses and writes a fixed set of offsets behind the first one.  Repeated with
a pitch it is a copy again, so rows make slices and slices make a box; where the two pitches agree,
each byte comes from the same offset behind the second address.

* `Moves.strided` — a repetition with one pitch moves the union of the shifted sets;
* `Moves.ext_iff` — two copies agree exactly when they move the same set;
* **`box_eq_Iio_iff`** — the rows of a box leave no gap exactly when the pitches are tight.
-/
import Mathlib

namespace Strided

variable {β : Type*}

abbrev Memory (β : Type*) := ℕ → β

/-- `n` bytes at `s` of the first memory go to `d` of the second one. -/
def memcpy (n : ℕ) (src : Memory β) (d s : ℕ) (dst : Memory β) : Memory β :=
  fun x => if d ≤ x ∧ x < d + n then src (s + (x - d)) else dst x

/-- A copy, by its two addresses. -/
abbrev Copy (β : Type*) := ℕ → ℕ → Memory β → Memory β

/-- Only the offsets of `S` are written. -/
def Frame (copy : Copy β) (S : Set ℕ) : Prop :=
  ∀ d s dst x, (∀ k ∈ S, x ≠ d + k) → copy d s dst x = dst x

/-- Each offset of `S` gets the byte at this offset of the source. -/
structure Moves (src : Memory β) (copy : Copy β) (S : Set ℕ) : Prop where
  frame : Frame copy S
  value : ∀ d s dst, ∀ k ∈ S, copy d s dst (d + k) = src (s + k)

theorem Moves.memcpy (n : ℕ) (src : Memory β) : Moves src (memcpy n src) (Set.Iio n) where
  frame := by
    intro d s dst x hx
    refine if_neg ?_
    rintro ⟨hd, hn⟩
    exact hx (x - d) (Set.mem_Iio.mpr (by omega)) (by omega)
  value := by
    intro d s dst k hk
    have hk : k < n := hk
    show (if d ≤ d + k ∧ d + k < d + n then src (s + (d + k - d)) else dst (d + k)) = src (s + k)
    rw [if_pos (by omega), Nat.add_sub_cancel_left]

/-- A copy done `n` times, with both addresses moving on. -/
def strided (dpitch spitch : ℕ) (copy : Copy β) : ℕ → Copy β
  | 0, _, _, dst => dst
  | n + 1, d, s, dst =>
    copy (d + n * dpitch) (s + n * spitch) (strided dpitch spitch copy n d s dst)

/-- One repetition does not use its pitches. -/
theorem strided_one (dpitch spitch : ℕ) (copy : Copy β) : strided dpitch spitch copy 1 = copy := by
  funext d s dst
  show copy (d + 0 * dpitch) (s + 0 * spitch) dst = copy d s dst
  rw [Nat.zero_mul, Nat.zero_mul, Nat.add_zero, Nat.add_zero]

/-- The offsets that `n` repetitions of `S` cover. -/
def shifts (n pitch : ℕ) (S : Set ℕ) : Set ℕ := {j | ∃ z < n, ∃ k ∈ S, j = z * pitch + k}

theorem Frame.strided {copy : Copy β} {S : Set ℕ} (h : Frame copy S) (dpitch spitch n : ℕ) :
    Frame (strided dpitch spitch copy n) (shifts n dpitch S) := by
  intro d s dst x hx
  induction n with
  | zero => rfl
  | succ n ih =>
    have hlast : ∀ k ∈ S, x ≠ d + n * dpitch + k := by
      intro k hk hxk
      exact hx (n * dpitch + k) ⟨n, n.lt_succ_self, k, hk, rfl⟩ (by omega)
    have hinit : ∀ j ∈ shifts n dpitch S, x ≠ d + j := by
      rintro j ⟨z, hz, k, hk, hj⟩
      exact hx j ⟨z, Nat.lt_succ_of_lt hz, k, hk, hj⟩
    show copy _ _ (Strided.strided dpitch spitch copy n d s dst) x = dst x
    rw [h _ _ _ x hlast, ih hinit]

theorem Moves.strided {src : Memory β} {copy : Copy β} {S : Set ℕ} (h : Moves src copy S)
    (pitch n : ℕ) : Moves src (strided pitch pitch copy n) (shifts n pitch S) where
  frame := h.frame.strided pitch pitch n
  value := by
    intro d s dst
    induction n with
    | zero =>
      rintro j ⟨z, hz, -⟩
      exact absurd hz (Nat.not_lt_zero z)
    | succ n ih =>
      rintro j ⟨z, hz, k, hk, rfl⟩
      show copy _ _ (Strided.strided pitch pitch copy n d s dst) (d + (z * pitch + k)) = _
      -- a later block may cover the byte again, with the same value
      by_cases hlast : ∃ k' ∈ S, z * pitch + k = n * pitch + k'
      · obtain ⟨k', hk', hj⟩ := hlast
        rw [hj, ← Nat.add_assoc, ← Nat.add_assoc]
        exact h.value _ _ _ k' hk'
      · have hne : ∀ k' ∈ S, d + (z * pitch + k) ≠ d + n * pitch + k' := by
          intro k' hk' heq
          exact hlast ⟨k', hk', by omega⟩
        have hz' : z ≠ n := fun hzn => hlast ⟨k, hk, by rw [hzn]⟩
        rw [h.frame _ _ _ _ hne]
        exact ih _ ⟨z, by omega, k, hk, rfl⟩

/-- The running addresses of a loop around a copy. -/
theorem iterate_eq (dpitch spitch : ℕ) (copy : Copy β) (n d s : ℕ) (dst : Memory β) :
    (fun p : ℕ × ℕ × Memory β => (p.1 + dpitch, p.2.1 + spitch, copy p.1 p.2.1 p.2.2))^[n]
        (d, s, dst) =
      (d + n * dpitch, s + n * spitch, strided dpitch spitch copy n d s dst) := by
  induction n with
  | zero => simp [strided]
  | succ n ih =>
    rw [Function.iterate_succ_apply', ih]
    show (_, _, _) = _
    rw [Nat.succ_mul, Nat.succ_mul, Nat.add_assoc, Nat.add_assoc]
    rfl

/-! ### Comparing two copies -/

theorem Moves.apply {src : Memory β} {copy : Copy β} {S : Set ℕ} [DecidablePred (· ∈ S)]
    (h : Moves src copy S) (d s : ℕ) (dst : Memory β) (x : ℕ) :
    copy d s dst x = if d ≤ x ∧ x - d ∈ S then src (s + (x - d)) else dst x := by
  split_ifs with hx
  · obtain ⟨hd, hS⟩ := hx
    have hval := h.value d s dst _ hS
    rwa [Nat.add_sub_cancel' hd] at hval
  · refine h.frame d s dst x ?_
    rintro k hk rfl
    exact hx ⟨Nat.le_add_right .., by rwa [Nat.add_sub_cancel_left]⟩

/-- Two copies agree on all memories exactly when they move the same offsets. -/
theorem Moves.ext_iff [Nontrivial β] {copy copy' : Memory β → Copy β} {S S' : Set ℕ}
    (h : ∀ src, Moves src (copy src) S) (h' : ∀ src, Moves src (copy' src) S') (d s : ℕ) :
    (∀ src dst, copy src d s dst = copy' src d s dst) ↔ S = S' := by
  classical
  constructor
  · intro heq
    obtain ⟨a, b, hab⟩ := exists_pair_ne β
    -- copy a memory of `a` over one of `b`: the moved offsets are those that hold `a`
    have hone : ∀ k, (if k ∈ S then a else b) = if k ∈ S' then a else b := by
      intro k
      have hk := congrFun (heq (fun _ => a) fun _ => b) (d + k)
      rw [(h _).apply, (h' _).apply] at hk
      simpa using hk
    ext k
    have hk := hone k
    split_ifs at hk with hS hS' hS'
    · exact iff_of_true hS hS'
    · exact absurd hk hab
    · exact absurd hk hab.symm
    · exact iff_of_false hS hS'
  · rintro rfl src dst
    funext x
    rw [(h src).apply, (h' src).apply]

/-! ### Boxes -/

/-- The offsets of the rows of a box. -/
def box (len rows row slices slice : ℕ) : Set ℕ :=
  shifts slices slice (shifts rows row (Set.Iio len))

theorem mem_box {len rows row slices slice j : ℕ} : j ∈ box len rows row slices slice ↔
    ∃ z < slices, ∃ y < rows, ∃ x < len, j = z * slice + (y * row + x) := by
  constructor
  · rintro ⟨z, hz, _, ⟨y, hy, x, hx, rfl⟩, rfl⟩
    exact ⟨z, hz, y, hy, x, hx, rfl⟩
  · rintro ⟨z, hz, y, hy, x, hx, rfl⟩
    exact ⟨z, hz, _, ⟨y, hy, x, hx, rfl⟩, rfl⟩

/-- Adjacent blocks leave no gap. -/
theorem shifts_Iio (n pitch : ℕ) : shifts n pitch (Set.Iio pitch) = Set.Iio (n * pitch) := by
  ext j
  constructor
  · rintro ⟨z, hz, k, hk, rfl⟩
    have hk : k < pitch := hk
    have hle : (z + 1) * pitch ≤ n * pitch := Nat.mul_le_mul_right pitch hz
    rw [Nat.succ_mul] at hle
    show z * pitch + k < n * pitch
    omega
  · intro hj
    have hj : j < n * pitch := hj
    have hpos : 0 < pitch := Nat.pos_of_ne_zero fun h => by simp [h] at hj
    refine ⟨j / pitch, Nat.div_lt_of_lt_mul (by rwa [Nat.mul_comm]), j % pitch,
      Nat.mod_lt j hpos, ?_⟩
    rw [Nat.mul_comm, Nat.div_add_mod]

/-- The last byte of the last row. -/
theorem last_mem_box {len rows row slices slice : ℕ} (hlen : 0 < len) (hrows : 0 < rows)
    (hslices : 0 < slices) :
    (slices - 1) * slice + ((rows - 1) * row + (len - 1)) ∈ box len rows row slices slice :=
  mem_box.mpr ⟨slices - 1, by omega, rows - 1, by omega, len - 1, by omega, rfl⟩

theorem le_last_of_mem_box {len rows row slices slice j : ℕ}
    (h : j ∈ box len rows row slices slice) :
    j ≤ (slices - 1) * slice + ((rows - 1) * row + (len - 1)) := by
  obtain ⟨z, hz, y, hy, x, hx, rfl⟩ := mem_box.mp h
  have hzle : z * slice ≤ (slices - 1) * slice := Nat.mul_le_mul_right _ (by omega)
  have hyle : y * row ≤ (rows - 1) * row := Nat.mul_le_mul_right _ (by omega)
  omega

/-- A box without gaps ends behind its last row. -/
theorem eq_last_of_box_eq {len rows row slices slice L : ℕ} (hlen : 0 < len) (hrows : 0 < rows)
    (hslices : 0 < slices) (h : box len rows row slices slice = Set.Iio L) :
    L = (slices - 1) * slice + ((rows - 1) * row + len) := by
  have hlast : (slices - 1) * slice + ((rows - 1) * row + (len - 1)) ∈
      box len rows row slices slice := last_mem_box hlen hrows hslices
  rw [h, Set.mem_Iio] at hlast
  by_contra hne
  have hmem : L - 1 ∈ box len rows row slices slice := h ▸ Set.mem_Iio.mpr (by omega)
  have := le_last_of_mem_box hmem
  omega

/-- The length of a copy of the whole box at once, in integers below `M`. -/
def span (rows row slices slice M : ℕ) : ℕ :=
  (if slices = 1 then rows * row else slices * slice) % M

/-- Nothing lies between the rows, and the length of the box does not wrap. -/
def Tight (len rows row slices slice M : ℕ) : Prop :=
  row = len ∧ if slices = 1 then rows * row < M else slice = rows * row ∧ slices * slice < M

theorem Tight.box_eq {len rows row slices slice M : ℕ} (h : Tight len rows row slices slice M) :
    box len rows row slices slice = Set.Iio (span rows row slices slice M) := by
  obtain ⟨rfl, h⟩ := h
  rw [box, shifts_Iio, span]
  split_ifs at h ⊢ with hone
  · subst hone
    rw [Nat.mod_eq_of_lt h]
    ext j
    constructor
    · rintro ⟨z, hz, k, hk, rfl⟩
      obtain rfl : z = 0 := by omega
      rwa [Nat.zero_mul, Nat.zero_add]
    · exact fun hj => ⟨0, Nat.zero_lt_one, j, hj, by rw [Nat.zero_mul, Nat.zero_add]⟩
  · obtain ⟨rfl, hlt⟩ := h
    rw [shifts_Iio, Nat.mod_eq_of_lt hlt]

/-- A row shorter than its pitch leaves a gap, unless a slice starts in it. -/
theorem slice_le_of_mem_box {len rows row slices slice : ℕ} (hlt : len < row)
    (h : len ∈ box len rows row slices slice) : 1 < slices ∧ slice ≤ len := by
  obtain ⟨z, hz, y, hy, x, hx, hj⟩ := mem_box.mp h
  have hy0 : y = 0 := by
    by_contra hne
    have : 1 * row ≤ y * row := Nat.mul_le_mul_right row (Nat.pos_of_ne_zero hne)
    omega
  subst hy0
  have hz0 : z ≠ 0 := by
    rintro rfl
    omega
  have : 1 * slice ≤ z * slice := Nat.mul_le_mul_right slice (Nat.pos_of_ne_zero hz0)
  omega

/-- A length that reaches the end of a box with one slice. -/
theorem tight_of_one_slice {len rows row slice M : ℕ} (hlen : 0 < len) (hle : len ≤ row)
    (hrow : row < M) (h : box len (rows + 1) row 1 slice = Set.Iio (((rows + 1) * row) % M))
    (hlast : ((rows + 1) * row) % M = rows * row + len) : row = len ∧ (rows + 1) * row < M := by
  have hM : ((rows + 1) * row) % M < M := Nat.mod_lt _ (by omega)
  have hrowlen : row = len := by
    by_contra hne
    obtain hzero | hpos := Nat.eq_zero_or_pos rows
    · subst hzero
      rw [Nat.zero_add, Nat.one_mul, Nat.mod_eq_of_lt hrow] at hlast
      omega
    · -- the gap behind the first row lies before the second one
      have hmul : 1 * row ≤ rows * row := Nat.mul_le_mul_right row hpos
      have hmem : len ∈ box len (rows + 1) row 1 slice := h ▸ Set.mem_Iio.mpr (by omega)
      have := slice_le_of_mem_box (by omega) hmem
      omega
  subst hrowlen
  rw [← Nat.succ_mul] at hlast
  exact ⟨rfl, hlast ▸ hM⟩

/-- A length that reaches the end of a box with several slices. -/
theorem tight_of_slices {len rows row slices slice M : ℕ} (hlen : 0 < len) (hle : len ≤ row)
    (hslice : slice < M) (hslices : 0 < slices)
    (hthin : rows = 0 → slice = 0 ∨ row ≤ slice)
    (h : box len (rows + 1) row (slices + 1) slice = Set.Iio (((slices + 1) * slice) % M))
    (hlast : ((slices + 1) * slice) % M = slices * slice + (rows * row + len)) :
    row = len ∧ slice = (rows + 1) * row ∧ (slices + 1) * slice < M := by
  have hspan : ((slices + 1) * slice) % M ≤ slices * slice + slice := by
    rw [← Nat.succ_mul]
    exact Nat.mod_le ..
  have hfits : rows * row + len ≤ slice := by omega
  have hmul : 1 * slice ≤ slices * slice := Nat.mul_le_mul_right slice hslices
  have hrowlen : row = len := by
    by_contra hne
    have hmem : len ∈ box len (rows + 1) row (slices + 1) slice :=
      h ▸ Set.mem_Iio.mpr (by omega)
    have hin := slice_le_of_mem_box (by omega) hmem
    -- a slice that starts in the gap has one row only
    have hrows : rows = 0 := by
      by_contra hne
      have : 1 * row ≤ rows * row := Nat.mul_le_mul_right row (Nat.pos_of_ne_zero hne)
      omega
    have := hthin hrows
    omega
  subst hrowlen
  have hnowrap : (slices + 1) * slice < M := by
    by_contra hwrap
    have hsub : ((slices + 1) * slice) % M ≤ (slices + 1) * slice - M := by
      rw [Nat.mod_eq_sub_mod (by omega)]
      exact Nat.mod_le ..
    rw [Nat.succ_mul] at hsub hwrap hlast
    omega
  rw [Nat.mod_eq_of_lt hnowrap, Nat.succ_mul] at hlast
  refine ⟨rfl, ?_, hnowrap⟩
  rw [Nat.succ_mul]
  omega

/-- **Boxes without gaps.**  The rows of a box fill the length that the pitches give exactly when
rows and slices follow each other directly and the length does not wrap. -/
theorem box_eq_Iio_iff {len rows row slices slice M : ℕ} (hlen : 0 < len) (hle : len ≤ row)
    (hrows : 0 < rows) (hslices : 0 < slices) (hrow : row < M) (hslice : slice < M)
    (hthin : slices ≠ 1 → rows = 1 → slice = 0 ∨ row ≤ slice) :
    box len rows row slices slice = Set.Iio (span rows row slices slice M) ↔
      Tight len rows row slices slice M := by
  refine ⟨fun h => ?_, Tight.box_eq⟩
  have hlast := eq_last_of_box_eq hlen hrows hslices h
  obtain ⟨rows, rfl⟩ : ∃ n, rows = n + 1 := ⟨rows - 1, by omega⟩
  obtain ⟨slices, rfl⟩ : ∃ n, slices = n + 1 := ⟨slices - 1, by omega⟩
  rw [Nat.add_sub_cancel, Nat.add_sub_cancel] at hlast
  by_cases hone : slices = 0
  · subst hone
    rw [span, if_pos rfl] at h hlast
    rw [Nat.zero_mul, Nat.zero_add] at hlast
    rw [Tight, if_pos rfl]
    exact tight_of_one_slice hlen hle hrow h hlast
  · have hne : slices + 1 ≠ 1 := by omega
    rw [span, if_neg hne] at h hlast
    rw [Tight, if_neg hne]
    exact tight_of_slices hlen hle hslice (Nat.pos_of_ne_zero hone)
      (fun hzero => hthin hne (by omega)) h hlast

end Strided
