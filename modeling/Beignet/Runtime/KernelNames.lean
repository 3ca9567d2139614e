/-
The list of kernel names (`cl_program_get_kernel_names` in `cl_program.c`), the answer to
`CL_PROGRAM_KERNEL_NAMES`.

The buffer is a block of `size` bytes; a write outside it ends the computation.  A `size_t` is a
number below 2 ^ 64 that wraps: the first test compares with `len - 1`, so that a buffer as long as
the first name, or one byte shorter, leaves a size that has wrapped.

* `loop_room` — the names after the first, with the remaining size behind the terminator;
* **`get_kernel_names_exact_iff`** — when the buffer is respected and the list is complete.
-/
import Beignet.Lib.Buffer

namespace Runtime

namespace KernelNames

/-- The value of a `size_t`. -/
def sizet (x : ℤ) : ℕ := (x % 2 ^ 64).toNat

abbrev Bytes := List (BitVec 8)

/-! ### Strings of the C library -/

def strlen (s : Bytes) : Option ℕ := s.findIdx? (· = 0#8)

/-- `n` bytes are written: what the source lacks is zero. -/
def strncpy (dest src : Bytes) (n : ℕ) : Option Bytes :=
  Buffer.write dest 0 (src.take n ++ List.replicate (n - src.length) 0#8)

def strncat (dest src : Bytes) (n : ℕ) : Option Bytes := do
  let len ← strlen dest
  Buffer.write dest len (src.take n ++ [0#8])

/-! ### The function -/

/-- `";"` -/
def separator : Bytes := [59]

/-- The loop over the kernels after the first; the buffer and `*size_ret` are returned. -/
def loop : List Bytes → ℕ → Option Bytes → ℕ → Option (Option Bytes × ℕ)
  | [], _, names, size_ret => some (names, size_ret)
  | ker_name :: ker, size, none, size_ret =>
    loop ker size none (sizet (size_ret + (ker_name.length + 1)))
  | ker_name :: ker, size, some names, size_ret => do
    let names ← strncat names separator size
    let names ← if 1 ≤ size then strncat names ker_name (size - 1) else some names
    if size < sizet (ker_name.length + 1) then some (some names, size)
    else
      loop ker (sizet (size - ker_name.length - 1)) (some names)
        (sizet (size_ret + (ker_name.length + 1)))

def get_kernel_names (ker : List Bytes) (size : ℕ) (names : Option Bytes) :
    Option (Option Bytes × ℕ) :=
  match ker, names with
  | [], names => some (names, 0)
  | ker_name :: ker, none => loop ker size none (sizet (ker_name.length + 1))
  | ker_name :: ker, some names => do
    let names ← strncpy names ker_name (sizet (size - 1))
    let names ← Buffer.write names (sizet (size - 1)) [0#8]
    if size < sizet ((ker_name.length : ℤ) - 1) then some (some names, size)
    else
      loop ker (sizet (size - ker_name.length - 1)) (some names) (sizet (ker_name.length + 1))

/-! ### What is asked for -/

def joined (ker : List Bytes) : Bytes := separator.intercalate ker

/-- C strings that are in the address space together. -/
structure Strings (ker : List Bytes) : Prop where
  noNul : ∀ s ∈ ker, 0#8 ∉ s
  fits : (joined ker).length + 1 < 2 ^ 64

/-- Without a buffer the length is reported; a buffer is written inside its bounds, and holds the
whole list if that has room. -/
def Exact (ker : List Bytes) (size : ℕ) (names : Option Bytes) : Prop :=
  match names with
  | none => get_kernel_names ker size none = some (none, (joined ker).length + 1)
  | some _ => ∃ buffer size_ret,
    get_kernel_names ker size names = some (some buffer, size_ret) ∧ buffer.length = size ∧
      ((joined ker).length + 1 ≤ size → joined ker ++ [0#8] <+: buffer)

/-- Neither the size nor what the first name leaves of it wraps, and an empty first name does not
end the list. -/
def Handled (ker : List Bytes) (size : ℕ) (names : Option Bytes) : Prop :=
  names = none ∨ 0 < size ∧ (2 ≤ ker.length →
    ker.head?.map List.length ≠ some size ∧ ker.head?.map List.length ≠ some (size + 1) ∧
      (ker.head? = some [] → size < (joined ker).length + 1 ∨ size = 2 ^ 64 - 1))

/-! ### Lemmas -/

theorem sizet_of_lt {n : ℕ} (h : n < 2 ^ 64) : sizet n = n := by
  simp only [sizet]
  omega

theorem sizet_sub {m n : ℕ} (hn : n ≤ m) (hm : m < 2 ^ 64) : sizet ((m : ℤ) - n) = m - n := by
  simp only [sizet]
  omega

/-- What follows the first name. -/
def rest (ker : List Bytes) : Bytes := (ker.map (separator ++ ·)).flatten

theorem joined_cons (ker_name : Bytes) (ker : List Bytes) :
    joined (ker_name :: ker) = ker_name ++ rest ker := by
  induction ker generalizing ker_name with
  | nil => simp [joined, rest]
  | cons next ker ih =>
    rw [joined, List.intercalate_cons_cons, ← joined, ih]
    simp [rest]

theorem length_joined_cons_cons (ker_name next : Bytes) (ker : List Bytes) :
    (joined (ker_name :: next :: ker)).length =
      ker_name.length + 1 + (joined (next :: ker)).length := by
  simp [joined, List.intercalate_cons_cons, separator]
  omega

theorem strlen_append {s tail : Bytes} (hs : 0#8 ∉ s) :
    strlen (s ++ 0#8 :: tail) = some s.length := by
  induction s with
  | nil => rfl
  | cons b s ih =>
    have hb : decide (b = 0#8) = false := decide_eq_false fun h => hs (h ▸ List.mem_cons_self)
    have hrest := ih fun h => hs (List.mem_cons_of_mem _ h)
    rw [strlen] at hrest ⊢
    rw [List.cons_append, List.findIdx?_cons, hb, hrest]
    rfl

/-- A string that is appended to where there is room for it. -/
theorem strncat_append {s tail src : Bytes} {n : ℕ} (hs : 0#8 ∉ s)
    (hroom : (src.take n).length ≤ tail.length) :
    strncat (s ++ 0#8 :: tail) src n =
      some (s ++ src.take n ++ 0#8 :: tail.drop (src.take n).length) := by
  rw [strncat, strlen_append hs, Option.bind_eq_bind, Option.bind_some, Buffer.write_of_le (by
    simp only [List.length_append, List.length_cons, List.length_nil]
    omega), List.take_left' rfl, List.length_append, List.length_singleton, ← List.drop_drop,
    List.drop_left' rfl, Nat.add_comm, ← List.drop_drop, List.drop_one, List.tail_cons]
  simp

theorem rest_cons (ker_name : Bytes) (ker : List Bytes) :
    rest (ker_name :: ker) = separator ++ ker_name ++ rest ker := by
  simp [rest]

/-- Without a buffer, the loop counts. -/
theorem loop_none (ker : List Bytes) (size : ℕ) {size_ret : ℕ}
    (h : size_ret + (rest ker).length < 2 ^ 64) :
    loop ker size none size_ret = some (none, size_ret + (rest ker).length) := by
  induction ker generalizing size_ret with
  | nil => rfl
  | cons ker_name ker ih =>
    rw [rest_cons] at h ⊢
    simp only [List.length_append, separator, List.length_singleton] at h ⊢
    have hsum : sizet (size_ret + (ker_name.length + 1)) = size_ret + (ker_name.length + 1) := by
      exact_mod_cast sizet_of_lt (show size_ret + (ker_name.length + 1) < 2 ^ 64 by omega)
    rw [loop, hsum, ih (by omega)]
    simp only [Option.some.injEq, Prod.mk.injEq, true_and]
    omega

/-- A round of the loop, with room for one byte at least. -/
theorem loop_cons {ker_name s tail : Bytes} (hs : 0#8 ∉ s) (htail : tail.length + 1 < 2 ^ 64)
    (hname : ker_name.length + 1 < 2 ^ 64) (ker : List Bytes) (c : BitVec 8) (size_ret : ℕ) :
    loop (ker_name :: ker) (tail.length + 1) (some (s ++ 0#8 :: c :: tail)) size_ret =
      if tail.length < ker_name.length then
        some (some (s ++ separator ++ ker_name.take tail.length ++ [0#8]), tail.length + 1)
      else
        loop ker (tail.drop ker_name.length).length
          (some (s ++ separator ++ ker_name ++ 0#8 :: tail.drop ker_name.length))
          (sizet (size_ret + (ker_name.length + 1))) := by
  have hs' : 0#8 ∉ s ++ separator := by
    rw [List.mem_append, not_or]
    exact ⟨hs, by decide⟩
  have hcat : strncat (s ++ 0#8 :: c :: tail) separator (tail.length + 1) =
      some (s ++ separator ++ 0#8 :: tail) := by
    rw [strncat_append hs (by simp [separator])]
    simp [separator]
  have hcat' : strncat (s ++ separator ++ 0#8 :: tail) ker_name tail.length = _ :=
    strncat_append hs' (List.length_take_le _ _)
  have hlen : sizet (ker_name.length + 1) = ker_name.length + 1 := by
    exact_mod_cast sizet_of_lt hname
  simp only [loop, hcat, hlen, Option.bind_eq_bind, Option.bind_some, Nat.add_sub_cancel, hcat',
    if_pos (Nat.le_add_left 1 tail.length), Nat.add_lt_add_iff_right]
  split
  · next hlt =>
    rw [List.length_take, Nat.min_eq_left hlt.le, List.drop_length]
  · next hge =>
    have hsize : sizet (((tail.length + 1 : ℕ) : ℤ) - ker_name.length - 1) =
        (tail.drop ker_name.length).length := by
      simp only [sizet, List.length_drop]
      omega
    rw [hsize, List.take_of_length_le (by omega)]

/-- The remaining size is the room behind the terminator: the loop stays in the buffer, and what
has room is appended. -/
theorem loop_room {ker : List Bytes} (hker : ∀ s ∈ ker, 0#8 ∉ s)
    (hfits : (rest ker).length < 2 ^ 64) {s : Bytes} (hs : 0#8 ∉ s) (tail : Bytes)
    (htail : tail.length < 2 ^ 64) (size_ret : ℕ) :
    ∃ buffer r, loop ker tail.length (some (s ++ 0#8 :: tail)) size_ret = some (some buffer, r) ∧
      buffer.length = s.length + 1 + tail.length ∧
      ((rest ker).length ≤ tail.length → s ++ rest ker ++ [0#8] <+: buffer) := by
  induction ker generalizing s tail size_ret with
  | nil =>
    refine ⟨_, _, rfl, by simp only [List.length_append, List.length_cons]; omega, fun _ => ?_⟩
    exact ⟨tail, by simp [rest]⟩
  | cons ker_name ker ih =>
    have hname := hker _ List.mem_cons_self
    have hlength : (rest (ker_name :: ker)).length = ker_name.length + 1 + (rest ker).length := by
      simp only [rest_cons, List.length_append, separator, List.length_singleton]
      omega
    rw [hlength] at hfits ⊢
    cases tail with
    | nil =>
      -- nothing is appended
      have hcat : strncat (s ++ [0#8]) separator 0 = some (s ++ [0#8]) := by
        rw [strncat_append hs (by simp)]
        simp
      have hlen : sizet (ker_name.length + 1) = ker_name.length + 1 := by
        exact_mod_cast sizet_of_lt (show ker_name.length + 1 < 2 ^ 64 by omega)
      refine ⟨s ++ [0#8], 0, ?_, by simp, fun h => absurd h (by simp)⟩
      simp only [loop, List.length_nil, hcat, hlen]
      rfl
    | cons c tail =>
      rw [List.length_cons] at htail ⊢
      rw [loop_cons hs htail (by omega)]
      split
      · next hlt =>
        refine ⟨_, _, rfl, ?_, fun h => absurd h (by omega)⟩
        simp only [List.length_append, List.length_take, separator, List.length_singleton]
        omega
      · next hge =>
        have hs' : 0#8 ∉ s ++ separator ++ ker_name := by
          simp only [List.mem_append, not_or]
          exact ⟨⟨hs, by decide⟩, hname⟩
        have hdrop := List.length_drop (l := tail) (i := ker_name.length)
        obtain ⟨buffer, r, hrun, hlen, hpre⟩ := ih (fun t ht => hker t (List.mem_cons_of_mem _ ht))
          (by omega) hs' (tail.drop ker_name.length) (by omega)
          (sizet (size_ret + (ker_name.length + 1)))
        refine ⟨buffer, r, hrun, ?_, fun h => ?_⟩
        · simp only [List.length_append, separator, List.length_singleton] at hlen
          omega
        · rw [rest_cons]
          simpa using hpre (by omega)

/-- The last byte of a block. -/
theorem write_last {s last : Bytes} {k : ℕ} (hs : s.length = k) (hlast : last.length = 1)
    (b : BitVec 8) : Buffer.write (s ++ last) k [b] = some (s ++ [b]) := by
  have hdrop : (s ++ last).drop (k + 1) = [] := by
    apply List.drop_eq_nil_of_le
    rw [List.length_append]
    omega
  rw [Buffer.write_of_le (by rw [List.length_append, List.length_singleton]; omega),
    List.take_left' hs, List.length_singleton, hdrop, List.append_nil]

/-- The buffer with the first name in it. -/
theorem get_kernel_names_some (ker_name : Bytes) {names : Bytes} (ker : List Bytes) {size : ℕ}
    (hsize : size < 2 ^ 64) (hlen : names.length = size) (hpos : 0 < size) :
    get_kernel_names (ker_name :: ker) size (some names) =
      let cut :=
        ker_name.take (size - 1) ++ List.replicate (size - 1 - ker_name.length) 0#8 ++ [0#8]
      if size < sizet ((ker_name.length : ℤ) - 1) then some (some cut, size)
      else
        loop ker (sizet (size - ker_name.length - 1)) (some cut) (sizet (ker_name.length + 1)) := by
  have hsub : sizet ((size : ℤ) - 1) = size - 1 := by
    exact_mod_cast sizet_sub hpos hsize
  have hcut : (ker_name.take (size - 1) ++
      List.replicate (size - 1 - ker_name.length) 0#8).length = size - 1 := by
    rw [List.length_append, List.length_take, List.length_replicate]
    omega
  have hcpy : strncpy names ker_name (size - 1) = some (ker_name.take (size - 1) ++
      List.replicate (size - 1 - ker_name.length) 0#8 ++ names.drop (size - 1)) := by
    rw [strncpy, Buffer.write_of_le (by omega), hcut, List.take_zero, List.nil_append, Nat.zero_add]
  have hrest : (names.drop (size - 1)).length = 1 := by
    rw [List.length_drop]
    omega
  have hend := write_last hcut hrest 0#8
  rw [get_kernel_names, hsub, hcpy, Option.bind_eq_bind, Option.bind_some, hend,
    Option.bind_some]

/-- A size of 0 lets `strncpy` write outside the buffer. -/
theorem get_kernel_names_empty {ker_name names : Bytes} (ker : List Bytes)
    (hlen : names.length = 0) : get_kernel_names (ker_name :: ker) 0 (some names) = none := by
  have hsub : sizet (((0 : ℕ) : ℤ) - 1) = 2 ^ 64 - 1 := by decide
  have hcpy : strncpy names ker_name (2 ^ 64 - 1) = none := by
    rw [strncpy, Buffer.write_eq_none]
    rw [List.length_append, List.length_take, List.length_replicate]
    omega
  rw [get_kernel_names, hsub, hcpy]
  rfl

/-- When a whole buffer is used, the next separator is outside. -/
theorem loop_full {s : Bytes} (hs : 0#8 ∉ s) {size : ℕ} (hpos : 0 < size) (ker_name : Bytes)
    (ker : List Bytes) (size_ret : ℕ) :
    loop (ker_name :: ker) size (some (s ++ [0#8])) size_ret = none := by
  have hcat : strncat (s ++ [0#8]) separator size = none := by
    rw [strncat, strlen_append hs, Option.bind_eq_bind, Option.bind_some, Buffer.write_eq_none]
    rw [List.take_of_length_le (hpos)]
    simp only [List.length_append, separator, List.length_singleton]
    omega
  rw [loop, hcat]
  rfl

/-- The buffer holds the first name when that has room. -/
theorem cut_of_lt {ker_name : Bytes} {size : ℕ} (hroom : ker_name.length < size) :
    ker_name.take (size - 1) ++ List.replicate (size - 1 - ker_name.length) 0#8 ++ [0#8] =
      ker_name ++ 0#8 :: List.replicate (size - 1 - ker_name.length) 0#8 := by
  rw [List.take_of_length_le (by omega), List.append_assoc, ← List.replicate_succ',
    List.replicate_succ]

theorem length_cut {ker_name : Bytes} {size : ℕ} (hpos : 0 < size) :
    (ker_name.take (size - 1) ++ List.replicate (size - 1 - ker_name.length) 0#8 ++
      [0#8]).length = size := by
  simp only [List.length_append, List.length_take, List.length_replicate, List.length_singleton]
  omega

/-- The first name has room. -/
theorem get_kernel_names_room {ker_name names : Bytes} {ker : List Bytes}
    (hker : Strings (ker_name :: ker)) {size : ℕ} (hsize : size < 2 ^ 64)
    (hlen : names.length = size) (hroom : ker_name.length < size)
    (hname : ker_name ≠ [] ∨ size = 2 ^ 64 - 1) :
    Exact (ker_name :: ker) size (some names) := by
  have hnul := hker.noNul _ List.mem_cons_self
  have hfits := hker.fits
  rw [joined_cons, List.length_append] at hfits
  have hlt : ¬ size < sizet ((ker_name.length : ℤ) - 1) := by
    rcases hname with hne | rfl
    · have := List.length_pos_of_ne_nil hne
      simp only [sizet]
      omega
    · simp only [sizet]
      omega
  have hsub : sizet ((size : ℤ) - ker_name.length - 1) = size - 1 - ker_name.length := by
    simp only [sizet]
    omega
  obtain ⟨buffer, r, hrun, hbuf, hpre⟩ := loop_room
    (fun s hs => hker.noNul s (List.mem_cons_of_mem _ hs)) (by omega) hnul
    (List.replicate (size - 1 - ker_name.length) 0#8)
    (by rw [List.length_replicate]; omega) (sizet (ker_name.length + 1))
  rw [List.length_replicate] at hrun hbuf hpre
  refine ⟨buffer, r, ?_, by omega, fun h => ?_⟩
  · rw [get_kernel_names_some ker_name ker hsize hlen (by omega)]
    simp only [if_neg hlt, hsub, cut_of_lt hroom, hrun]
  · rw [joined_cons, List.length_append] at h
    rw [joined_cons]
    exact hpre (by omega)

/-- One kernel: the buffer is always respected. -/
theorem get_kernel_names_single {ker_name names : Bytes} {size : ℕ} (hsize : size < 2 ^ 64)
    (hlen : names.length = size) (hpos : 0 < size) : Exact [ker_name] size (some names) := by
  have hrun := get_kernel_names_some ker_name [] hsize hlen hpos
  have hpre : (joined [ker_name]).length + 1 ≤ size → joined [ker_name] ++ [0#8] <+:
      ker_name.take (size - 1) ++ List.replicate (size - 1 - ker_name.length) 0#8 ++ [0#8] := by
    intro h
    have hjoined : joined [ker_name] = ker_name := by
      simp [joined]
    rw [hjoined] at h ⊢
    rw [cut_of_lt (by omega)]
    exact ⟨List.replicate (size - 1 - ker_name.length) 0#8, by simp⟩
  simp only [loop] at hrun
  split at hrun
  · exact ⟨_, _, hrun, length_cut hpos, hpre⟩
  · exact ⟨_, _, hrun, length_cut hpos, hpre⟩

/-- The function returns behind the first name. -/
theorem exact_of_early {ker_name next names : Bytes} {ker : List Bytes} {size : ℕ}
    (hsize : size < 2 ^ 64) (hlen : names.length = size) (hpos : 0 < size)
    (hname : ker_name.length < 2 ^ 64) (hearly : size < sizet ((ker_name.length : ℤ) - 1)) :
    Exact (ker_name :: next :: ker) size (some names) ↔
      (ker_name = [] → size < (joined (ker_name :: next :: ker)).length + 1) := by
  have hrun := get_kernel_names_some ker_name (next :: ker) hsize hlen hpos
  simp only [if_pos hearly] at hrun
  have hlength := length_joined_cons_cons ker_name next ker
  constructor
  · rintro ⟨buffer, r, hbuf, -, hpre⟩ rfl
    rw [hrun] at hbuf
    by_contra hge
    have hcut := hpre (by omega)
    -- the list starts with a separator, the buffer with the terminator
    cases hbuf
    rw [cut_of_lt hpos, joined_cons, rest_cons] at hcut
    obtain ⟨t, ht⟩ := hcut
    simp [separator] at ht
  · intro hempty
    refine ⟨_, _, hrun, length_cut hpos, fun h => ?_⟩
    by_cases hnil : ker_name = []
    · exact absurd (hempty hnil) (by omega)
    · have := List.length_pos_of_ne_nil hnil
      simp only [sizet] at hearly
      omega

/-- A kernel list, and a buffer of `size` bytes or none: the length is reported, or the buffer is
respected and gets the list where it has room, iff neither the size nor what the first name leaves
of it wraps, and an empty first name does not end the list. -/
theorem get_kernel_names_exact_iff {ker : List Bytes} {size : ℕ} {names : Option Bytes}
    (hker : Strings ker) (hne : ker ≠ []) (hsize : size < 2 ^ 64)
    (hlen : ∀ buffer ∈ names, buffer.length = size) :
    Exact ker size names ↔ Handled ker size names := by
  obtain ⟨ker_name, ker, rfl⟩ := List.exists_cons_of_ne_nil hne
  have hfits := hker.fits
  have hjoined := joined_cons ker_name ker
  have hlength : (joined (ker_name :: ker)).length = ker_name.length + (rest ker).length := by
    rw [hjoined, List.length_append]
  cases names with
  | none =>
    refine iff_of_true ?_ (.inl rfl)
    have hfirst : sizet (ker_name.length + 1) = ker_name.length + 1 := by
      exact_mod_cast sizet_of_lt (show ker_name.length + 1 < 2 ^ 64 by omega)
    rw [Exact, get_kernel_names, hfirst, loop_none ker size (by omega)]
    simp only [Option.some.injEq, Prod.mk.injEq, true_and]
    omega
  | some names =>
    have hlen := hlen names rfl
    simp only [Handled, reduceCtorEq, false_or, List.head?_cons, Option.map_some, ne_eq,
      Option.some.injEq, List.length_cons]
    rcases Nat.eq_zero_or_pos size with rfl | hpos
    · refine iff_of_false (fun h => ?_) fun h => absurd h.1 (Nat.lt_irrefl 0)
      obtain ⟨buffer, r, hrun, -, -⟩ := h
      rw [get_kernel_names_empty ker hlen] at hrun
      cases hrun
    · cases ker with
      | nil =>
        refine iff_of_true (get_kernel_names_single hsize hlen hpos) ⟨hpos, fun h => ?_⟩
        exact absurd h (by simp)
      | cons next ker =>
        by_cases hearly : size < sizet ((ker_name.length : ℤ) - 1)
        · rw [exact_of_early hsize hlen hpos (by omega) hearly]
          simp only [sizet] at hearly
          have hle : 2 ≤ (next :: ker).length + 1 := by simp
          constructor
          · intro h
            refine ⟨hpos, fun _ => ⟨?_, ?_, fun hnil => .inl (h hnil)⟩⟩
            · omega
            · omega
          · rintro ⟨-, h⟩ hnil
            rcases (h hle).2.2 hnil with hlt | rfl
            · exact hlt
            · omega
        · by_cases hroom : ker_name.length < size
          · have hname : ker_name ≠ [] ∨ size = 2 ^ 64 - 1 := by
              by_contra hboth
              rw [not_or, not_not] at hboth
              rw [hboth.1] at hearly
              simp only [sizet, List.length_nil] at hearly
              omega
            refine iff_of_true (get_kernel_names_room hker hsize hlen hroom hname)
              ⟨hpos, fun _ => ?_⟩
            exact ⟨by omega, by omega, fun hnil => .inr (hname.resolve_left (not_not.mpr hnil))⟩
          · -- the size has wrapped
            refine iff_of_false ?_ ?_
            · rintro ⟨buffer, r, hrun, -⟩
              have hnul : 0#8 ∉ ker_name.take (size - 1) := fun h =>
                hker.noNul _ List.mem_cons_self (List.mem_of_mem_take h)
              have hcut : ker_name.take (size - 1) ++
                  List.replicate (size - 1 - ker_name.length) 0#8 = ker_name.take (size - 1) := by
                have hnone : size - 1 - ker_name.length = 0 := by omega
                rw [hnone, List.replicate_zero, List.append_nil]
              rw [get_kernel_names_some _ _ hsize hlen hpos] at hrun
              simp only [if_neg hearly, hcut] at hrun
              rw [loop_full hnul (by simp only [sizet] at hearly ⊢; omega)] at hrun
              cases hrun
            · rintro ⟨-, h⟩
              have hle := h (by simp)
              simp only [sizet] at hearly
              omega

/-- Two names in a buffer of the exact size. -/
theorem get_kernel_names_exact_two :
    Strings [[97], [98]] ∧ Exact [[97], [98]] 4 (some [1, 1, 1, 1]) := by
  have hker : Strings [[97], [98]] := ⟨by decide, by decide⟩
  refine ⟨hker, (get_kernel_names_exact_iff hker (by simp) (by omega) ?_).mpr (.inr ⟨by omega, ?_⟩)⟩
  · rintro buffer ⟨⟩
    rfl
  · intro _
    exact ⟨by decide, by decide, fun h => absurd h (by decide)⟩

/-- The name and the terminator of a buffer of one byte, and then two bytes behind it. -/
theorem not_exact_small : Strings [[97], [98]] ∧ ¬ Exact [[97], [98]] 1 (some [1]) := by
  refine ⟨⟨by decide, by decide⟩, ?_⟩
  rintro ⟨buffer, r, hrun, -⟩
  have hnone : get_kernel_names [[97], [98]] 1 (some [1]) = none := by decide
  rw [hnone] at hrun
  cases hrun

end KernelNames

end Runtime
