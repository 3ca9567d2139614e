/-
Memory in pieces: blocks of bytes that are read and written inside their bounds.

`read` and `write` fail where a part of the range is outside the block.  A number is kept with its
lowest byte first.

* `read_of_le`, `write_cases` — the bounds of what is read and written;
* `read_flatten` — one of many parts of the same size;
* `number_bytes`, `bytes_number` — numbers.
-/
import Mathlib

namespace Buffer

/-! ### Blocks -/

section

variable {β : Type*}

/-- `size` elements from `off` on. -/
def read (buf : List β) (off size : ℕ) : Option (List β) :=
  if off + size ≤ buf.length then some ((buf.drop off).take size) else none

/-- The block with `src` at `off`. -/
def write (buf : List β) (off : ℕ) (src : List β) : Option (List β) :=
  if off + src.length ≤ buf.length then
    some (buf.take off ++ src ++ buf.drop (off + src.length))
  else none

variable {buf buf' src : List β} {off off' size : ℕ}

theorem read_of_le (h : off + size ≤ buf.length) :
    read buf off size = some ((buf.drop off).take size) := if_pos h

theorem read_eq_none (h : buf.length < off + size) : read buf off size = none :=
  if_neg (by omega)

theorem write_of_le (h : off + src.length ≤ buf.length) :
    write buf off src = some (buf.take off ++ src ++ buf.drop (off + src.length)) := if_pos h

theorem write_eq_none (h : buf.length < off + src.length) : write buf off src = none :=
  if_neg (by omega)

theorem length_read (h : read buf off size = some src) : src.length = size := by
  rw [read] at h
  split at h
  · next hle =>
    rw [← Option.some.inj h, List.length_take, List.length_drop]
    omega
  · cases h

theorem write_cases (h : write buf off src = some buf') : off + src.length ≤ buf.length ∧
    buf' = buf.take off ++ src ++ buf.drop (off + src.length) := by
  rw [write] at h
  split at h
  · next hle => exact ⟨hle, (Option.some.inj h).symm⟩
  · cases h

theorem length_write (h : write buf off src = some buf') : buf'.length = buf.length := by
  obtain ⟨hle, rfl⟩ := write_cases h
  simp only [List.length_append, List.length_take, List.length_drop]
  omega

/-- Everything, if it starts with `src`. -/
theorem read_prefix (h : src <+: buf) : read buf 0 src.length = some src := by
  obtain ⟨rest, rfl⟩ := h
  rw [read_of_le (by simp), List.drop_zero, List.take_left' rfl]

/-- One of the parts of a block. -/
theorem read_flatten {parts : List (List β)} (hparts : ∀ p ∈ parts, p.length = size)
    (hpre : parts.flatten <+: buf) {i : ℕ} (hi : i < parts.length) :
    read buf (i * size) size = some (parts.get ⟨i, hi⟩) := by
  obtain ⟨rest, rfl⟩ := hpre
  induction parts generalizing i with
  | nil => exact absurd hi (Nat.not_lt_zero _)
  | cons p parts ih =>
    have hp := hparts p List.mem_cons_self
    cases i with
    | zero =>
      rw [Nat.zero_mul, List.flatten_cons, List.append_assoc, ← hp]
      exact read_prefix (List.prefix_append _ _)
    | succ i =>
      have hrest := ih (fun q hq => hparts q (List.mem_cons_of_mem _ hq))
        (Nat.lt_of_succ_lt_succ hi)
      have hoff : (i + 1) * size = p.length + i * size := by
        rw [hp]
        ring
      rw [read] at hrest
      split at hrest
      · next hle =>
        rw [hoff, List.flatten_cons, List.append_assoc, read_of_le, List.drop_append,
          List.drop_eq_nil_of_le (by omega), List.nil_append, Nat.add_sub_cancel_left]
        · exact hrest
        · rw [List.length_append]
          omega
      · cases hrest

end

/-! ### Numbers -/

/-- The lowest `k` bytes of a number. -/
def bytes : ℕ → ℕ → List (BitVec 8)
  | 0, _ => []
  | k + 1, n => BitVec.ofNat 8 n :: bytes k (n / 256)

def number : List (BitVec 8) → ℕ
  | [] => 0
  | b :: bs => b.toNat + 256 * number bs

@[simp] theorem length_bytes (k n : ℕ) : (bytes k n).length = k := by
  induction k generalizing n with
  | zero => rfl
  | succ k ih => rw [bytes, List.length_cons, ih]

theorem bytes_eq_map (k n : ℕ) :
    bytes k n = (List.range k).map fun i => BitVec.ofNat 8 (n / 256 ^ i) := by
  induction k generalizing n with
  | zero => rfl
  | succ k ih =>
    rw [bytes, ih, List.range_succ_eq_map, List.map_cons, List.map_map, Nat.pow_zero, Nat.div_one]
    congr 1
    refine List.map_congr_left fun i _ => ?_
    rw [Function.comp_apply, Nat.pow_succ', Nat.div_div_eq_div_mul]

theorem number_bytes (k n : ℕ) : number (bytes k n) = n % 256 ^ k := by
  induction k generalizing n with
  | zero => rw [bytes, number, Nat.pow_zero, Nat.mod_one]
  | succ k ih =>
    have hlow : (BitVec.ofNat 8 n).toNat = n % 256 := BitVec.toNat_ofNat n 8
    rw [bytes, number, ih, hlow, Nat.pow_succ', Nat.mod_mul]

theorem number_lt (bs : List (BitVec 8)) : number bs < 256 ^ bs.length := by
  induction bs with
  | nil => exact Nat.one_pos
  | cons b bs ih =>
    have hb := b.isLt
    rw [number, List.length_cons, Nat.pow_succ]
    omega

theorem bytes_number (bs : List (BitVec 8)) : bytes bs.length (number bs) = bs := by
  induction bs with
  | nil => rfl
  | cons b bs ih =>
    have hb := b.isLt
    have hdiv : (b.toNat + 256 * number bs) / 256 = number bs := by
      omega
    have hmod : BitVec.ofNat 8 (b.toNat + 256 * number bs) = b := by
      apply BitVec.eq_of_toNat_eq
      rw [BitVec.toNat_ofNat]
      omega
    rw [number, List.length_cons, bytes, hdiv, ih, hmod]

/-- A word of `k` bytes. -/
theorem ofNat_number_bytes {k : ℕ} (v : BitVec (8 * k)) :
    BitVec.ofNat (8 * k) (number (bytes k v.toNat)) = v := by
  have hpow : 256 ^ k = 2 ^ (8 * k) := by
    rw [Nat.pow_mul]
  rw [number_bytes, hpow, Nat.mod_eq_of_lt v.isLt, BitVec.ofNat_toNat, BitVec.setWidth_eq]

end Buffer
