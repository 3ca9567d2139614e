/-
Array immediates: built from an array or from a vector of scalars, copied, shifted by whole
elements and read by index.

The constructors and `copy` decide with different formulas whether the elements have room in the
word of the immediate.  What an immediate stores is compared with a list of elements, step by step.
A step whose condition does not hold fails, or leaves an immediate that never has the elements of
the list again.

* `Stores.run` — a step works on the stored elements as on the list;
* `Stores.broken`, `Broken.run` — what a step breaks stays broken;
* `stores_ofArray`, `stores_ofVector` — what the constructors store;
* **`array_exact_iff`** — when every element that is read is the one of the list.
-/
import Beignet.Ir.Immediate

namespace Ir

open ImmType

namespace Immediate

/-! ### Elements -/

/-- An element is given by its bytes. -/
abbrev Elements := List (List (BitVec 8))

inductive ArrayOp where
  | copy
  /-- by a number of elements -/
  | shl (k : ℕ)
  | lshr (k : ℕ)
  deriving DecidableEq

namespace ArrayOp

def amount : ArrayOp → ℕ
  | copy => 0
  | shl k => k
  | lshr k => k

/-- On the list. -/
def apply (size : ℕ) : ArrayOp → Elements → Elements
  | copy, xs => xs
  | shl k, xs => List.replicate k (zeros size) ++ xs.take (xs.length - k)
  | lshr k, xs => xs.drop k ++ List.replicate k (zeros size)

end ArrayOp

/-- Where the elements come from. -/
inductive Source where
  | array (xs : Elements)
  | vector (immVec : List Immediate)

namespace Source

def elements (t : ImmType) : Source → Elements
  | array xs => xs
  | vector immVec => immVec.map fun imm => imm.data.take t.getTypeSize

/-- An array of less than 2 ^ 32 elements of the type, or scalars of it. -/
def Valid (t : ImmType) : Source → Prop
  | array xs => xs.length < 2 ^ 32 ∧ ∀ x ∈ xs, x.length = t.getTypeSize
  | vector immVec =>
    ∀ imm ∈ immVec, imm.type = t ∧ imm.elemNum = 1 ∧ t.getTypeSize ≤ imm.data.length

instance (t : ImmType) : (src : Source) → Decidable (src.Valid t)
  | array _ => inferInstanceAs (Decidable (_ ∧ _))
  | vector immVec => inferInstanceAs (Decidable (∀ imm ∈ immVec, _ ∧ _ ∧ _))

end Source

section

variable (junk : ℕ → BitVec 8) (t : ImmType)

/-- The immediate that an array is shifted by. -/
def bits (k : ℕ) : Immediate := ofWord TYPE_U64 (BitVec.ofNat 64 (k * t.getTypeSize * 8))

def index (i : ℕ) : Immediate := ofWord TYPE_U32 (BitVec.ofNat 32 i)

def ArrayOp.run (imm : Immediate) : ArrayOp → Result Immediate
  | copy => assign junk imm
  | shl k => fold junk .IMM_SHL imm (bits t k) TYPE_LARGE_INT
  | lshr k => fold junk .IMM_LSHR imm (bits t k) TYPE_LARGE_INT

def runAll (ops : List ArrayOp) (imm : Immediate) : Result Immediate :=
  ops.foldlM (fun imm op => op.run junk t imm) imm

def Source.build : Source → Result Immediate
  | array xs => ofArray junk t xs.length xs.flatten
  | vector immVec => ofVector junk immVec t

/-- Everything that can be read is as in the list. -/
def Keeps (src : Source) (ops : List ArrayOp) : Prop :=
  ∃ imm, (src.build junk t >>= runAll junk t ops) = pure imm ∧
    ∀ (i : ℕ) (x : List (BitVec 8)),
      (ops.foldl (fun xs op => op.apply t.getTypeSize xs) (src.elements t))[i]? = some x →
        fold junk .IMM_EXTRACT imm (index i) t = pure (scalar t x)

end

/-! ### When the elements are kept -/

/-- The condition of a step on an immediate of `n` elements. -/
def ArrayOp.Exact (t : ImmType) (n : ℕ) : ArrayOp → Prop
  | copy => n * t.getTypeSize < 2 ^ 32
  | shl k =>
    if n = 1 then k = 0 ∧ t.isInteger
    else n * t.getTypeSize < 2 ^ 32 ∧ k * t.getTypeSize * 8 ≤ uint32 (n * t.getTypeSize * 8)
  | lshr k =>
    if n = 1 then k = 0 ∧ t.isInteger
    else n * t.getTypeSize < 2 ^ 32 ∧ k * t.getTypeSize * 8 ≤ uint32 (n * t.getTypeSize * 8) ∧
      (k = 0 ∨ k < n ∧ n < 2 ^ 31)

instance (t : ImmType) (n : ℕ) : (op : ArrayOp) → Decidable (op.Exact t n)
  | .copy => inferInstanceAs (Decidable (_ < _))
  | .shl k => inferInstanceAs (Decidable (if n = 1 then k = 0 ∧ t.isInteger else _ ∧ _))
  | .lshr k => inferInstanceAs (Decidable (if n = 1 then k = 0 ∧ t.isInteger else _ ∧ _ ∧ _))

namespace Source

/-- The elements have room where they are put. -/
def Fits (t : ImmType) : Source → Prop
  | array xs => xs.length * t.getTypeSize < 2 ^ 32 ∧
    (uint32 (xs.length * xs.length) ≤ 8 → xs.length * t.getTypeSize ≤ 8)
  | vector immVec => immVec ≠ [] ∧ immVec.length < 2 ^ 32

instance (t : ImmType) : (src : Source) → Decidable (src.Fits t)
  | array _ => inferInstanceAs (Decidable (_ ∧ (_ → _)))
  | vector _ => inferInstanceAs (Decidable (_ ∧ _))

/-- The word of the immediate is cleared behind the copy. -/
def Lost (t : ImmType) : Source → Prop
  | array _ => False
  | vector [imm] => imm.block = none
  | vector immVec => immVec.length * t.getTypeSize < 8

instance (t : ImmType) : (src : Source) → Decidable (src.Lost t)
  | array _ => inferInstanceAs (Decidable False)
  | vector [imm] => inferInstanceAs (Decidable (imm.block = none))
  | vector [] => inferInstanceAs (Decidable (_ < _))
  | vector (_ :: _ :: _) => inferInstanceAs (Decidable (_ < _))

end Source

/-! ### Stored elements -/

structure Stores (imm : Immediate) (t : ImmType) (xs : Elements) : Prop where
  type : imm.type = t
  elemNum : imm.elemNum = xs.length
  size : ∀ x ∈ xs, x.length = t.getTypeSize
  data : xs.flatten <+: imm.data
  inline : imm.block = none → imm.data.length = 8

theorem length_flatten {xs : Elements} {size : ℕ} (h : ∀ x ∈ xs, x.length = size) :
    xs.flatten.length = xs.length * size := by
  induction xs with
  | nil => simp
  | cons x xs ih =>
    rw [List.flatten_cons, List.length_append, h x List.mem_cons_self,
      ih fun y hy => h y (List.mem_cons_of_mem _ hy), List.length_cons]
    ring

theorem flatten_take {xs : Elements} {size k : ℕ} (h : ∀ x ∈ xs, x.length = size)
    (hk : k ≤ xs.length) : (xs.take k).flatten = xs.flatten.take (k * size) := by
  have hlen : (xs.take k).flatten.length = k * size := by
    rw [length_flatten fun x hx => h x (List.mem_of_mem_take hx), List.length_take,
      Nat.min_eq_left hk]
  conv_rhs => rw [← List.take_append_drop k xs, List.flatten_append]
  rw [List.take_left' hlen]

theorem flatten_drop {xs : Elements} {size k : ℕ} (h : ∀ x ∈ xs, x.length = size)
    (hk : k ≤ xs.length) : (xs.drop k).flatten = xs.flatten.drop (k * size) := by
  have hlen : (xs.take k).flatten.length = k * size := by
    rw [length_flatten fun x hx => h x (List.mem_of_mem_take hx), List.length_take,
      Nat.min_eq_left hk]
  conv_rhs => rw [← List.take_append_drop k xs, List.flatten_append]
  rw [List.drop_left' hlen]

theorem flatten_zeros (k size : ℕ) :
    (List.replicate k (zeros size)).flatten = zeros (k * size) := by
  rw [zeros, zeros, List.flatten_replicate_replicate]

/-! ### What a step gives -/

theorem bind_eq_pure {α β : Type} {x : Result α} {f : α → Result β} {b : β} :
    x >>= f = pure b ↔ ∃ a, x = pure a ∧ f a = pure b := by
  cases x with
  | error e =>
    constructor
    · intro h
      cases h
    · rintro ⟨a, h, -⟩
      cases h
  | ok a =>
    constructor
    · exact fun h => ⟨a, rfl, h⟩
    · rintro ⟨a', h, hf⟩
      cases h
      exact hf

theorem pure_eq_pure {α : Type} {a b : α} : (pure a : Result α) = pure b ↔ a = b :=
  ⟨fun h => Except.ok.inj h, fun h => h ▸ rfl⟩

theorem assert_eq_pure {c : Prop} [Decidable c] {u : Unit} : assert c = pure u ↔ c := by
  rw [assert]
  split
  · next h => exact iff_of_true rfl h
  · next h =>
    refine iff_of_false (fun hc => ?_) h
    cases hc

section

variable {junk : ℕ → BitVec 8} {t : ImmType} {imm imm' : Immediate}

/-- The bytes that a block of the type and number has. -/
def blockSize (imm : Immediate) : ℕ := uint32 (imm.elemNum * imm.type.getTypeSize)

theorem assign_cases (h : assign junk imm = pure imm') :
    imm'.type = imm.type ∧ imm'.elemNum = imm.elemNum ∧
      (imm.block = none ∧ imm'.block = none ∧ imm'.data = imm.data ∨
        imm.block ≠ none ∧ imm'.block ≠ none ∧ imm'.data.length = imm.blockSize) := by
  obtain ⟨type, n, word, block⟩ := imm
  cases block with
  | none =>
    cases h
    exact ⟨rfl, rfl, Or.inl ⟨rfl, rfl, rfl⟩⟩
  | some p =>
    obtain ⟨src, hread, h⟩ := bind_eq_pure.mp h
    obtain ⟨p', hwrite, h⟩ := bind_eq_pure.mp h
    cases h
    refine ⟨rfl, rfl, Or.inr ⟨Option.some_ne_none _, Option.some_ne_none _, ?_⟩⟩
    show p'.length = _
    rw [Buffer.length_write (inside_eq_pure.mp hwrite), length_malloc]
    rfl

theorem copy_cases {offset : ℤ} {num : ℕ} (h : copy junk imm offset num = pure imm') :
    imm'.type = imm.type ∧ imm'.elemNum = num ∧
      imm'.data.length = (if uint32 (num * imm.type.getTypeSize) < 8 then 8
        else uint32 (num * imm.type.getTypeSize)) ∧
      ∃ w, window imm.type.getTypeSize offset num = pure w := by
  obtain ⟨cleared, hclear, h⟩ := bind_eq_pure.mp h
  obtain ⟨⟨datap, first, num'⟩, hwindow, h⟩ := bind_eq_pure.mp h
  obtain ⟨src, hread, h⟩ := bind_eq_pure.mp h
  obtain ⟨filled, hfill, h⟩ := bind_eq_pure.mp h
  have hlength := (Buffer.length_write (inside_eq_pure.mp hfill)).trans
    (Buffer.length_write (inside_eq_pure.mp hclear))
  rw [length_malloc] at hlength
  split at h
  · cases h
    exact ⟨rfl, rfl, hlength, _, hwindow⟩
  · cases h
    exact ⟨rfl, rfl, hlength, _, hwindow⟩

theorem shift_cases {f : (t : ImmType) → ℤ → ℕ → BitVec t.width} {member : ImmType → ImmType}
    {right : Immediate} (h : shift junk f member imm right = pure imm') :
    imm.type.isInteger ∧ ∃ count, right.getIntegerValue = pure count ∧
      (int32 count = 0 ∧ assign junk imm = pure imm' ∨
        0 < int32 count ∧ int32 count < (member imm.type).promote.width ∧
          imm'.type = (member imm.type).promote ∧ imm'.elemNum = 1 ∧ imm'.block = none) := by
  obtain ⟨_, hinteger, h⟩ := bind_eq_pure.mp h
  obtain ⟨count, hcount, h⟩ := bind_eq_pure.mp h
  refine ⟨assert_eq_pure.mp hinteger, count, hcount, ?_⟩
  dsimp only at h
  split at h
  · next hzero => exact Or.inl ⟨hzero, h⟩
  · next hzero =>
    obtain ⟨a, -, h⟩ := bind_eq_pure.mp h
    split at h
    · cases h
    · next hrange =>
      cases h
      exact Or.inr ⟨by omega, by omega, rfl, rfl, rfl⟩

/-! ### Amounts and indices -/

theorem getIntegerValue_bits (k : ℕ) : (bits t k).getIntegerValue =
    pure (BitVec.ofNat 64 (k * t.getTypeSize * 8)).toInt := by
  have hholds := holds_ofWord TYPE_U64 (BitVec.ofNat 64 (k * t.getTypeSize * 8))
  have hword : ∀ v : BitVec 64, BitVec.ofInt 64 (v.toNat : ℤ) = v := by
    intro v
    rw [BitVec.ofInt_natCast, BitVec.ofNat_toNat, BitVec.setWidth_eq]
  rw [getIntegerValue, bits, hholds.type, hholds.fetch]
  exact congrArg (fun v : BitVec 64 => (pure v.toInt : Result ℤ)) (hword _)

theorem getIntegerValue_index {i : ℕ} (hi : i < 2 ^ 32) :
    (index i).getIntegerValue = pure (i : ℤ) := by
  have hholds := holds_ofWord TYPE_U32 (BitVec.ofNat 32 i)
  have hvalue : (BitVec.ofInt 64 ((BitVec.ofNat 32 i).toNat : ℤ)).toInt = i := by
    rw [BitVec.toNat_ofNat, Nat.mod_eq_of_lt hi, BitVec.toInt_ofInt]
    exact Int.bmod_eq_of_le (by omega) (by omega)
  rw [getIntegerValue, index, hholds.type, hholds.fetch]
  exact congrArg (pure : ℤ → Result ℤ) hvalue

/-- What is read of an element. -/
theorem fold_extract {i : ℕ} (hi : i < 2 ^ 32) :
    fold junk .IMM_EXTRACT imm (index i) t = pure imm' ↔
      (imm.type ≠ TYPE_BOOL ∧ imm.type ≠ TYPE_LARGE_INT) ∧ t = imm.type ∧ i < imm.elemNum ∧
        ∃ x, Buffer.read imm.data (i * imm.type.getTypeSize) imm.type.getTypeSize = some x ∧
          scalar imm.type x = imm' := by
  have hindex : (BitVec.ofInt 32 (i : ℤ)).toNat = i := by
    rw [BitVec.ofInt_natCast, BitVec.toNat_ofNat, Nat.mod_eq_of_lt hi]
  have hfold : fold junk .IMM_EXTRACT imm (index i) t = (do
      let this ← assign junk (← extract imm (index i) t)
      assert (this.type = t ∨ t = TYPE_LARGE_INT ∨ t = TYPE_BOOL)
      return this) := by
    simp [fold, result]
  have hextract : ∀ {r}, extract imm (index i) t = pure r ↔
      (imm.type ≠ TYPE_BOOL ∧ imm.type ≠ TYPE_LARGE_INT) ∧ t = imm.type ∧ i < imm.elemNum ∧
        ∃ x, Buffer.read imm.data (i * imm.type.getTypeSize) imm.type.getTypeSize = some x ∧
          scalar imm.type x = r := by
    intro r
    rw [extract, getIntegerValue_index hi, pure_bind]
    simp only [bind_eq_pure, assert_eq_pure, exists_and_left, exists_const, hindex, bytesAt,
      inside_eq_pure, pure_eq_pure]
  rw [hfold]
  simp only [bind_eq_pure, assert_eq_pure, exists_and_left, exists_const, pure_eq_pure]
  constructor
  · rintro ⟨r, hr, r', hassign, -, rfl⟩
    obtain ⟨htype, ht, hlt, x, hread, rfl⟩ := hextract.mp hr
    cases hassign
    exact ⟨htype, ht, hlt, x, hread, rfl⟩
  · rintro ⟨htype, ht, hlt, x, hread, rfl⟩
    exact ⟨_, hextract.mpr ⟨htype, ht, hlt, x, hread, rfl⟩, _, assign_none junk, Or.inl ht.symm,
      rfl⟩

end

/-! ### Steps that keep the elements -/

section

variable {junk : ℕ → BitVec 8} {t : ImmType} {imm imm' : Immediate} {xs : Elements}

@[simp] theorem ArrayOp.length_apply (size : ℕ) (op : ArrayOp) (xs : Elements) :
    (op.apply size xs).length = max xs.length op.amount := by
  cases op with
  | copy => simp [apply, amount]
  | shl k =>
    simp only [apply, amount, List.length_append, List.length_replicate, List.length_take]
    omega
  | lshr k =>
    simp only [apply, amount, List.length_append, List.length_replicate, List.length_drop]
    omega

theorem size_replicate {k size : ℕ} : ∀ x ∈ List.replicate k (zeros size), x.length = size := by
  intro x hx
  rw [List.eq_of_mem_replicate hx, length_zeros]

namespace Stores

theorem length_data (h : Stores imm t xs) : xs.length * t.getTypeSize ≤ imm.data.length := by
  rw [← length_flatten h.size]
  exact h.data.length_le

theorem take_data (h : Stores imm t xs) :
    imm.data.take (xs.length * t.getTypeSize) = xs.flatten := by
  rw [← length_flatten h.size]
  exact (List.prefix_iff_eq_take.mp h.data).symm

/-- Elements inside have room in 8 bytes. -/
theorem le_of_inline (h : Stores imm t xs) (hblock : imm.block = none) :
    xs.length * t.getTypeSize ≤ 8 :=
  h.length_data.trans (h.inline hblock).le

theorem assign (h : Stores imm t xs) (hsize : xs.length * t.getTypeSize < 2 ^ 32) :
    ∃ imm', Immediate.assign junk imm = pure imm' ∧ Stores imm' t xs := by
  obtain ⟨type, n, word, block⟩ := imm
  obtain ⟨rfl, rfl, hlen, hdata, hinline⟩ := h
  cases block with
  | none => exact ⟨_, assign_none junk, rfl, rfl, hlen, hdata, hinline⟩
  | some p =>
    have hp : xs.length * type.getTypeSize ≤ p.length := by
      rw [← length_flatten hlen]
      exact hdata.length_le
    refine ⟨_, assign_some junk (uint32_of_lt hsize) hp, rfl, rfl, hlen, ?_, fun h => ?_⟩
    · rw [data_some, ← length_flatten hlen]
      exact List.prefix_take_iff.mpr ⟨hdata, le_rfl⟩
    · cases h

/-- The window of a copy that moves the elements inside of the immediate. -/
theorem copy (h : Stores imm t xs) {offset : ℤ} {num datap first : ℕ}
    (hsize : xs.length * t.getTypeSize < 2 ^ 32) (hnum : num + datap + first = xs.length)
    (hwindow : window t.getTypeSize offset xs.length =
      pure (datap * t.getTypeSize, first, num)) :
    ∃ imm', Immediate.copy junk imm offset xs.length = pure imm' ∧
      Stores imm' t (List.replicate datap (zeros t.getTypeSize) ++ (xs.drop first).take num ++
        List.replicate first (zeros t.getTypeSize)) := by
  have hlen := h.length_data
  have htake := h.take_data
  obtain ⟨rfl, hn, hxs, -, -⟩ := h
  set s := imm.type.getTypeSize with hs
  have hparts : xs.length * s = num * s + datap * s + first * s := by
    rw [← hnum]
    ring
  obtain ⟨imm', hcopy, htype, hnum', hlength, hblock, hdata⟩ :=
    copy_of_window junk (uint32_of_lt hsize) (uint32_of_lt (show num * s < 2 ^ 32 by omega))
      hwindow (by rw [← hs, uint32_of_lt (show first * s < 2 ^ 32 by omega)]; omega)
      (show datap * s + num * s ≤ xs.length * s by omega)
  have hmoved : (imm.data.drop (first * s)).take (num * s) =
      ((xs.drop first).take num).flatten := by
    have hdrop : ((xs.drop first).flatten) = (imm.data.take (xs.length * s)).drop (first * s) := by
      rw [htake, flatten_drop hxs (by omega)]
    rw [flatten_take (fun x hx => hxs x (List.mem_of_mem_drop hx))
      (by rw [List.length_drop]; omega), hdrop, List.drop_take, List.take_take,
      Nat.min_eq_left (by omega)]
  rw [← hs, uint32_of_lt (show first * s < 2 ^ 32 by omega), hmoved,
    show xs.length * s - datap * s - num * s = first * s by omega] at hdata
  refine ⟨imm', hcopy, ⟨htype, ?_, ?_, ?_, fun hnone => ?_⟩⟩
  · rw [hnum']
    simp only [List.length_append, List.length_replicate, List.length_take, List.length_drop]
    omega
  · intro x hx
    rcases List.mem_append.mp hx with hx | hx
    · rcases List.mem_append.mp hx with hx | hx
      · exact size_replicate x hx
      · exact hxs x (List.mem_of_mem_drop (List.mem_of_mem_take hx))
    · exact size_replicate x hx
  · rw [List.flatten_append, List.flatten_append, flatten_zeros, flatten_zeros, ← hdata]
    exact List.take_prefix _ _
  · rw [hlength, if_pos (hblock.mp hnone)]

end Stores

/-! ### Shifts of arrays -/

theorem fold_large {op : ImmOpCode} {right : Immediate} : fold junk op imm right TYPE_LARGE_INT =
    if imm.elemNum ≠ 1 ∧ op = .IMM_LSHR then
      elements imm right >>= fun k => copy junk imm (int32 k) imm.elemNum
    else if imm.elemNum ≠ 1 ∧ op = .IMM_SHL then
      elements imm right >>= fun k => copy junk imm (int32 (-k)) imm.elemNum
    else if imm.elemNum ≠ 1 ∧ op = .IMM_ASHR then throw .assertion
    else result junk op imm right TYPE_LARGE_INT >>= fun r => assign junk r := by
  simp [fold, assert]

theorem elements_eq_pure {k : ℕ} {c : ℤ} (htype : imm.type = t)
    (hk : k * t.getTypeSize * 8 < 2 ^ 63) : elements imm (bits t k) = pure c ↔
      k * t.getTypeSize * 8 ≤ uint32 (imm.elemNum * t.getTypeSize * 8) ∧ c = k := by
  have hcount : (BitVec.ofNat 64 (k * t.getTypeSize * 8)).toInt =
      (k : ℤ) * ((t.getTypeSize : ℤ) * 8) := by
    have hcast : ((k * t.getTypeSize * 8 : ℕ) : ℤ) = (k : ℤ) * ((t.getTypeSize : ℤ) * 8) := by
      push_cast
      ring
    rw [BitVec.toInt_ofNat', Int.bmod_eq_of_le (by omega) (by omega), hcast]
  have hpos : (t.getTypeSize : ℤ) * 8 ≠ 0 := by
    have := getTypeSize_pos t
    omega
  rw [elements, getIntegerValue_bits, pure_bind, htype]
  simp only [bind_eq_pure, assert_eq_pure, exists_const, pure_eq_pure, hcount,
    Int.mul_tmod_left, Int.mul_tdiv_cancel _ hpos, true_and, eq_comm (a := (k : ℤ))]
  refine and_congr_left fun _ => ?_
  rw [← Nat.cast_le (α := ℤ)]
  push_cast
  rw [mul_assoc (k : ℤ)]

theorem int32_of_lt {x : ℤ} (hlo : -2 ^ 31 ≤ x) (hhi : x < 2 ^ 31) : int32 x = x := by
  rw [int32, BitVec.toInt_ofInt]
  exact Int.bmod_eq_of_le (by omega) (by omega)

/-- A shift of another number of elements than one. -/
theorem run_array {op : ArrayOp} {k : ℕ} (hop : op = .shl k ∨ op = .lshr k)
    (htype : imm.type = t) (hn : imm.elemNum ≠ 1) (hk : k * t.getTypeSize * 8 < 2 ^ 63) :
    op.run junk t imm = pure imm' ↔
      k * t.getTypeSize * 8 ≤ uint32 (imm.elemNum * t.getTypeSize * 8) ∧
        copy junk imm (if op = .shl k then -k else k) imm.elemNum = pure imm' := by
  have hsmall : k * t.getTypeSize * 8 ≤ uint32 (imm.elemNum * t.getTypeSize * 8) →
      (k : ℤ) < 2 ^ 31 := by
    intro h
    have hlt : uint32 (imm.elemNum * t.getTypeSize * 8) < 2 ^ 32 := Nat.mod_lt _ (by decide)
    have hle := Nat.le_mul_of_pos_right k (getTypeSize_pos t)
    omega
  rcases hop with rfl | rfl
  · have hrun : (ArrayOp.shl k).run junk t imm =
        elements imm (bits t k) >>= fun k => copy junk imm (int32 (-k)) imm.elemNum := by
      simp [ArrayOp.run, fold_large, hn]
    simp only [hrun, bind_eq_pure, elements_eq_pure htype hk, if_true]
    constructor
    · rintro ⟨c, ⟨hle, rfl⟩, h⟩
      rw [int32_of_lt (by have := hsmall hle; omega) (by omega)] at h
      exact ⟨hle, h⟩
    · rintro ⟨hle, h⟩
      refine ⟨k, ⟨hle, rfl⟩, ?_⟩
      rwa [int32_of_lt (by have := hsmall hle; omega) (by omega)]
  · have hrun : (ArrayOp.lshr k).run junk t imm =
        elements imm (bits t k) >>= fun k => copy junk imm (int32 k) imm.elemNum := by
      simp [ArrayOp.run, fold_large, hn]
    rw [if_neg (by simp)]
    simp only [hrun, bind_eq_pure, elements_eq_pure htype hk]
    constructor
    · rintro ⟨c, ⟨hle, rfl⟩, h⟩
      rw [int32_of_lt (by omega) (hsmall hle)] at h
      exact ⟨hle, h⟩
    · rintro ⟨hle, h⟩
      refine ⟨k, ⟨hle, rfl⟩, ?_⟩
      rwa [int32_of_lt (by omega) (hsmall hle)]

end

section

variable {junk : ℕ → BitVec 8} {t : ImmType} {imm imm' : Immediate} {xs : Elements} {op : ArrayOp}
  {k : ℕ}

/-- A shift of one element, by the operators for scalars. -/
theorem run_scalar (hop : op = .shl k ∨ op = .lshr k) (hn : imm.elemNum = 1) :
    ∃ (f : (t : ImmType) → ℤ → ℕ → BitVec t.width) (member : ImmType → ImmType),
      (∀ u, member u = u ∨ member u = u.unsigned) ∧
        op.run junk t imm = shift junk f member imm (bits t k) >>= assign junk := by
  rcases hop with rfl | rfl
  · refine ⟨leftShifted, id, fun u => Or.inl rfl, ?_⟩
    simp [ArrayOp.run, fold_large, hn, result, shl]
  · refine ⟨rightShifted, ImmType.unsigned, fun u => Or.inr rfl, ?_⟩
    simp [ArrayOp.run, fold_large, hn, result, lshr]

namespace Stores

/-- One element is not moved. -/
theorem run_scalar (h : Stores imm t xs) (hop : op = .shl 0 ∨ op = .lshr 0)
    (hone : xs.length = 1) (hinteger : t.isInteger) :
    ∃ imm', op.run junk t imm = pure imm' ∧ Stores imm' t xs := by
  have hle := getTypeSize_le t
  have hsize : xs.length * t.getTypeSize < 2 ^ 32 := by
    rw [hone]
    omega
  obtain ⟨f, member, -, hrun⟩ := Immediate.run_scalar hop (h.elemNum.trans hone)
  obtain ⟨imm1, hassign1, h1⟩ :
      ∃ imm', Immediate.assign junk imm = pure imm' ∧ Stores imm' t xs := h.assign hsize
  obtain ⟨imm2, hassign2, h2⟩ :
      ∃ imm', Immediate.assign junk imm1 = pure imm' ∧ Stores imm' t xs := h1.assign hsize
  refine ⟨imm2, ?_, h2⟩
  have hcount : (bits t 0).getIntegerValue = pure 0 := by
    rw [getIntegerValue_bits, Nat.zero_mul, Nat.zero_mul]
    rfl
  have hzero : int32 0 = 0 := by decide
  rw [hrun, shift, hcount]
  simp [assert, h.type, hinteger, hzero, hassign1, hassign2]

theorem run_shl (h : Stores imm t xs) (hone : xs.length ≠ 1)
    (hsize : xs.length * t.getTypeSize < 2 ^ 32)
    (hk : k * t.getTypeSize * 8 ≤ uint32 (xs.length * t.getTypeSize * 8)) :
    ∃ imm', (ArrayOp.shl k).run junk t imm = pure imm' ∧
      Stores imm' t ((ArrayOp.shl k).apply t.getTypeSize xs) := by
  have hlt : uint32 (xs.length * t.getTypeSize * 8) < 2 ^ 32 := Nat.mod_lt _ (by decide)
  have hkn : k * t.getTypeSize ≤ xs.length * t.getTypeSize := by
    have := Nat.mod_le (xs.length * t.getTypeSize * 8) (2 ^ 32)
    rw [uint32] at hk
    omega
  have hkn : k ≤ xs.length := Nat.le_of_mul_le_mul_right hkn (getTypeSize_pos t)
  have hwindow : window t.getTypeSize (-k) xs.length =
      pure (k * t.getTypeSize, 0, xs.length - k) := by
    rw [window]
    by_cases hzero : k = 0
    · rw [if_neg (by omega), if_neg (by omega), hzero, Nat.zero_mul]
      rfl
    · rw [if_pos (by omega), neg_neg, Int.toNat_natCast, uint32_of_lt (by omega),
        Nat.min_eq_right hkn]
  obtain ⟨imm', hcopy, hstores⟩ := h.copy hsize (by omega) hwindow
  refine ⟨imm', (run_array (Or.inl rfl) h.type (by rw [h.elemNum]; exact hone) (by omega)).mpr
    ⟨by rw [h.elemNum]; exact hk, ?_⟩, ?_⟩
  · rw [if_pos rfl, h.elemNum]
    exact hcopy
  · rw [List.drop_zero, List.replicate_zero, List.append_nil] at hstores
    exact hstores

theorem run_lshr (h : Stores imm t xs) (hone : xs.length ≠ 1)
    (hsize : xs.length * t.getTypeSize < 2 ^ 32)
    (hk : k * t.getTypeSize * 8 ≤ uint32 (xs.length * t.getTypeSize * 8))
    (hlast : k = 0 ∨ k < xs.length ∧ xs.length < 2 ^ 31) :
    ∃ imm', (ArrayOp.lshr k).run junk t imm = pure imm' ∧
      Stores imm' t ((ArrayOp.lshr k).apply t.getTypeSize xs) := by
  have hlt : uint32 (xs.length * t.getTypeSize * 8) < 2 ^ 32 := Nat.mod_lt _ (by decide)
  have hwindow : window t.getTypeSize k xs.length =
      pure (0 * t.getTypeSize, k, xs.length - k) := by
    rw [window, if_neg (by omega), Nat.zero_mul]
    by_cases hzero : k = 0
    · rw [if_neg (by omega), hzero]
      rfl
    · rw [if_pos (by omega), int32_of_lt (by omega) (by omega), assert, if_pos (by omega),
        pure_bind, Int.toNat_natCast]
  obtain ⟨imm', hcopy, hstores⟩ := h.copy hsize (by omega) hwindow
  refine ⟨imm', (run_array (Or.inr rfl) h.type (by rw [h.elemNum]; exact hone) (by omega)).mpr
    ⟨by rw [h.elemNum]; exact hk, ?_⟩, ?_⟩
  · rw [if_neg (by simp), h.elemNum]
    exact hcopy
  · rw [List.take_of_length_le (by rw [List.length_drop]), List.replicate_zero,
      List.nil_append] at hstores
    exact hstores

/-- A step whose condition holds works on the stored elements as on the list. -/
theorem run (h : Stores imm t xs) (hexact : op.Exact t xs.length) :
    ∃ imm', op.run junk t imm = pure imm' ∧ Stores imm' t (op.apply t.getTypeSize xs) := by
  cases op with
  | copy => exact h.assign hexact
  | shl k =>
    simp only [ArrayOp.Exact] at hexact
    split at hexact
    · next hone =>
      obtain ⟨rfl, hinteger⟩ := hexact
      obtain ⟨imm', hrun, hstores⟩ := h.run_scalar (Or.inl rfl) hone hinteger
      refine ⟨imm', hrun, ?_⟩
      rwa [ArrayOp.apply, List.replicate_zero, List.nil_append, Nat.sub_zero, List.take_length]
    · next hone => exact h.run_shl hone hexact.1 hexact.2
  | lshr k =>
    simp only [ArrayOp.Exact] at hexact
    split at hexact
    · next hone =>
      obtain ⟨rfl, hinteger⟩ := hexact
      obtain ⟨imm', hrun, hstores⟩ := h.run_scalar (Or.inr rfl) hone hinteger
      refine ⟨imm', hrun, ?_⟩
      rwa [ArrayOp.apply, List.replicate_zero, List.append_nil, List.drop_zero]
    · next hone => exact h.run_lshr hone hexact.1 hexact.2.1 hexact.2.2

end Stores

/-! ### Steps that lose elements -/

/-- An immediate that cannot have the elements of a list of length `n`, now or later. -/
inductive Broken (t : ImmType) (imm : Immediate) (n : ℕ) : Prop where
  /-- fewer elements -/
  | short (hlt : imm.elemNum < n) (hnum : imm.elemNum < 2 ^ 32)
  /-- a block of a size that was reduced to 32 bits -/
  | truncated (htype : imm.type = t) (hnum : imm.elemNum = n) (hn : n < 2 ^ 32)
      (hsize : 2 ^ 32 ≤ n * t.getTypeSize) (hdata : imm.data.length < n * t.getTypeSize)
  /-- a scalar that was promoted -/
  | promoted (htype : imm.type = TYPE_S32 ∨ imm.type = TYPE_U32) (ht : t.getTypeSize < 4)
      (hn : n ≠ 0)

theorem blockSize_lt {n : ℕ} (hsize : 2 ^ 32 ≤ n * t.getTypeSize) :
    (if uint32 (n * t.getTypeSize) < 8 then 8 else uint32 (n * t.getTypeSize)) <
      n * t.getTypeSize := by
  have hlt : uint32 (n * t.getTypeSize) < 2 ^ 32 := Nat.mod_lt _ (by decide)
  split <;> omega

/-- What a step did. -/
theorem run_cases (h : op.run junk t imm = pure imm') :
    op = .copy ∧ assign junk imm = pure imm' ∨
      (∃ k, (op = .shl k ∨ op = .lshr k) ∧ imm.elemNum = 1 ∧
        ∃ f member r, (∀ u, member u = u ∨ member u = ImmType.unsigned u) ∧
          shift junk f member imm (bits t k) = pure r ∧ assign junk r = pure imm') ∨
      ∃ k, (op = .shl k ∨ op = .lshr k) ∧ imm.elemNum ≠ 1 ∧
        ∃ offset, copy junk imm offset imm.elemNum = pure imm' := by
  have hshift : ∀ k, (op = .shl k ∨ op = .lshr k) → imm.elemNum = 1 →
      ∃ f member r, (∀ u, member u = u ∨ member u = ImmType.unsigned u) ∧
        shift junk f member imm (bits t k) = pure r ∧ assign junk r = pure imm' := by
    intro k hop hn
    obtain ⟨f, member, hmember, hrun⟩ := run_scalar hop hn
    rw [hrun] at h
    obtain ⟨r, hr, hassign⟩ := bind_eq_pure.mp h
    exact ⟨f, member, r, hmember, hr, hassign⟩
  cases op with
  | copy => exact Or.inl ⟨rfl, h⟩
  | shl k =>
    by_cases hn : imm.elemNum = 1
    · exact Or.inr (Or.inl ⟨k, Or.inl rfl, hn, hshift k (Or.inl rfl) hn⟩)
    · rw [ArrayOp.run, fold_large, if_neg (by simp), if_pos ⟨hn, rfl⟩] at h
      obtain ⟨c, -, hcopy⟩ := bind_eq_pure.mp h
      exact Or.inr (Or.inr ⟨k, Or.inl rfl, hn, _, hcopy⟩)
  | lshr k =>
    by_cases hn : imm.elemNum = 1
    · exact Or.inr (Or.inl ⟨k, Or.inr rfl, hn, hshift k (Or.inr rfl) hn⟩)
    · rw [ArrayOp.run, fold_large, if_pos ⟨hn, rfl⟩] at h
      obtain ⟨c, -, hcopy⟩ := bind_eq_pure.mp h
      exact Or.inr (Or.inr ⟨k, Or.inr rfl, hn, _, hcopy⟩)

theorem elemNum_run (h : op.run junk t imm = pure imm') : imm'.elemNum = imm.elemNum := by
  rcases run_cases h with ⟨-, hassign⟩ | ⟨k, -, hn, f, member, r, -, hshift, hassign⟩ |
    ⟨k, -, -, offset, hcopy⟩
  · exact (assign_cases hassign).2.1
  · rw [(assign_cases hassign).2.1, hn]
    obtain ⟨-, count, -, ⟨-, hr⟩ | ⟨-, -, -, hr, -⟩⟩ := shift_cases hshift
    · rw [(assign_cases hr).2.1, hn]
    · exact hr
  · exact (copy_cases hcopy).2.1

/-- The types that a shift of a scalar can give. -/
theorem type_run (h : op.run junk t imm = pure imm') : imm'.type = imm.type ∨
    imm.elemNum = 1 ∧ (imm'.type = imm.type.promote ∨ imm'.type = imm.type.unsigned.promote) := by
  rcases run_cases h with ⟨-, hassign⟩ | ⟨k, -, hn, f, member, r, hmember, hshift, hassign⟩ |
    ⟨k, -, -, offset, hcopy⟩
  · exact Or.inl (assign_cases hassign).1
  · obtain ⟨-, count, -, ⟨-, hr⟩ | ⟨-, -, hr, -, -⟩⟩ := shift_cases hshift
    · exact Or.inl ((assign_cases hassign).1.trans (assign_cases hr).1)
    · refine Or.inr ⟨hn, ?_⟩
      rw [(assign_cases hassign).1, hr]
      rcases hmember imm.type with h | h <;> rw [h]
      · exact Or.inl rfl
      · exact Or.inr rfl
  · exact Or.inl (copy_cases hcopy).1

/-- What is broken stays so. -/
theorem Broken.run {n : ℕ} (h : Broken t imm n) (hrun : op.run junk t imm = pure imm') :
    Broken t imm' (max n op.amount) := by
  have hnum := elemNum_run hrun
  cases h with
  | short hlt hlt32 => exact .short (by omega) (by omega)
  | promoted htype ht hn =>
    refine .promoted ?_ ht (by omega)
    rcases type_run hrun with h | ⟨-, h | h⟩ <;> rw [h]
    · exact htype
    all_goals rcases htype with h | h <;> rw [h] <;> decide
  | truncated htype hn hn32 hsize hdata =>
    by_cases hmore : n < op.amount
    · exact .short (by omega) (by omega)
    · rw [max_eq_left (by omega)]
      have hone : imm.elemNum ≠ 1 := by
        have := getTypeSize_le t
        intro h
        rw [← hn, h] at hsize
        omega
      have htype' : imm'.type = t := by
        rcases type_run hrun with h | ⟨h, -⟩
        · exact h.trans htype
        · exact absurd h hone
      refine .truncated htype' (hnum.trans hn) hn32 hsize ?_
      rcases run_cases hrun with ⟨-, hassign⟩ | ⟨-, -, h, -⟩ | ⟨k, -, -, offset, hcopy⟩
      · rcases (assign_cases hassign).2.2 with ⟨-, -, h⟩ | ⟨-, -, h⟩
        · rwa [h]
        · rw [h, blockSize, htype, hn]
          have hlt : uint32 (n * t.getTypeSize) < 2 ^ 32 := Nat.mod_lt _ (by decide)
          omega
      · exact absurd h hone
      · rw [(copy_cases hcopy).2.2.1, htype, hn]
        exact blockSize_lt hsize

/-- A shift of one element has no room for it. -/
theorem Stores.broken_scalar (h : Stores imm t xs) (hone : xs.length = 1)
    (hop : op = .shl k ∨ op = .lshr k) (hexact : ¬ (k = 0 ∧ t.isInteger))
    (hrun : op.run junk t imm = pure imm') : Broken t imm' (max 1 k) := by
  have hnum := (elemNum_run hrun).trans (h.elemNum.trans hone)
  by_cases hmore : 1 < k
  · exact .short (by omega) (by omega)
  obtain ⟨f, member, hmember, hshift⟩ := Immediate.run_scalar hop (h.elemNum.trans hone)
  rw [hshift] at hrun
  obtain ⟨r, hr, hassign⟩ := bind_eq_pure.mp hrun
  obtain ⟨hinteger, count, hcount, hcases⟩ := shift_cases hr
  rw [h.type] at hinteger hcases
  obtain rfl : k = 1 := by
    have : k ≠ 0 := fun hk => hexact ⟨hk, hinteger⟩
    omega
  have hle := getTypeSize_le t
  have hpos := getTypeSize_pos t
  have hcount : int32 count = (t.getTypeSize : ℤ) * 8 := by
    rw [getIntegerValue_bits, pure_eq_pure, Nat.one_mul, BitVec.toInt_ofNat',
      Int.bmod_eq_of_le (by omega) (by omega)] at hcount
    rw [← hcount, int32_of_lt (by omega) (by omega)]
    push_cast
    rfl
  rw [hcount] at hcases
  rcases hcases with ⟨hzero, -⟩ | ⟨-, hlt, htype, -⟩
  · omega
  · -- what is promoted is smaller than an `int`
    have hsmall : t.getTypeSize < 4 ∧ (member t).promote = TYPE_S32 := by
      revert hlt hinteger
      rcases hmember t with h | h <;> rw [h] <;> cases t <;> decide
    refine .promoted (Or.inl ?_) hsmall.1 (by omega)
    rw [(assign_cases hassign).1, htype, hsmall.2]

/-- A step whose condition does not hold. -/
theorem Stores.broken (h : Stores imm t xs) (hn : xs.length < 2 ^ 32)
    (hexact : ¬ op.Exact t xs.length) (hrun : op.run junk t imm = pure imm') :
    Broken t imm' (max xs.length op.amount) := by
  have hnum := (elemNum_run hrun).trans h.elemNum
  by_cases hmore : xs.length < op.amount
  · exact .short (by omega) (by omega)
  rw [max_eq_left (not_lt.mp hmore)]
  by_cases hsize : xs.length * t.getTypeSize < 2 ^ 32
  · have harray : ∀ {k}, (op = .shl k ∨ op = .lshr k) → xs.length ≠ 1 →
        k * t.getTypeSize * 8 ≤ uint32 (xs.length * t.getTypeSize * 8) ∧
          Immediate.copy junk imm (if op = .shl k then -k else k) xs.length = pure imm' := by
      intro k hop hone
      have hk : k * t.getTypeSize * 8 < 2 ^ 63 := by
        have hle := Nat.mul_le_mul_right t.getTypeSize (show k ≤ xs.length by
          rcases hop with rfl | rfl <;> exact not_lt.mp hmore)
        omega
      rw [← h.elemNum]
      exact (run_array hop h.type (by rw [h.elemNum]; exact hone) hk).mp hrun
    cases op with
    | copy => exact absurd hsize hexact
    | shl k =>
      simp only [ArrayOp.Exact] at hexact
      split at hexact
      · next hone =>
        have hbroken := h.broken_scalar hone (Or.inl rfl) hexact hrun
        rw [hone] at hmore ⊢
        have hmax : max 1 k = 1 := max_eq_left (not_lt.mp hmore)
        rwa [hmax] at hbroken
      · next hone => exact absurd ⟨hsize, (harray (Or.inl rfl) hone).1⟩ hexact
    | lshr k =>
      simp only [ArrayOp.Exact] at hexact
      split at hexact
      · next hone =>
        have hbroken := h.broken_scalar hone (Or.inr rfl) hexact hrun
        rw [hone] at hmore ⊢
        have hmax : max 1 k = 1 := max_eq_left (not_lt.mp hmore)
        rwa [hmax] at hbroken
      · next hone =>
        obtain ⟨hk, hcopy⟩ := harray (Or.inr rfl) hone
        refine absurd ⟨hsize, hk, ?_⟩ hexact
        by_cases hzero : k = 0
        · exact Or.inl hzero
        · refine Or.inr ?_
          have hkn : k ≤ xs.length := not_lt.mp hmore
          obtain ⟨w, hwindow⟩ := (copy_cases hcopy).2.2.2
          rw [if_neg (by simp), window, if_neg (by omega), if_pos (by omega)] at hwindow
          obtain ⟨_, hlast, -⟩ := bind_eq_pure.mp hwindow
          have hlast := assert_eq_pure.mp hlast
          have hint : xs.length < 2 ^ 31 := by
            by_contra hge
            have hneg : int32 (xs.length : ℤ) = xs.length - 2 ^ 32 := by
              rw [int32, BitVec.toInt_ofInt, Int.bmod_def]
              omega
            omega
          rw [int32_of_lt (by omega) (by omega)] at hlast
          exact ⟨by omega, hint⟩
  · have hone : xs.length ≠ 1 := by
      have := getTypeSize_le t
      intro hone
      rw [hone] at hsize
      omega
    have htype : imm'.type = t := by
      rcases type_run hrun with htype | ⟨hone', -⟩
      · exact htype.trans h.type
      · exact absurd (h.elemNum.symm.trans hone') hone
    refine .truncated htype hnum hn (by omega) ?_
    rcases run_cases hrun with ⟨-, hassign⟩ | ⟨-, -, hone', -⟩ | ⟨-, -, -, offset, hcopy⟩
    · rcases (assign_cases hassign).2.2 with ⟨hblock, -⟩ | ⟨-, -, hdata⟩
      · have := h.le_of_inline hblock
        omega
      · rw [hdata, blockSize, h.type, h.elemNum]
        have hlt : uint32 (xs.length * t.getTypeSize) < 2 ^ 32 := Nat.mod_lt _ (by decide)
        omega
    · exact absurd (h.elemNum.symm.trans hone') hone
    · rw [(copy_cases hcopy).2.2.1, h.type, h.elemNum]
      exact blockSize_lt (by omega)

end

/-! ### Runs -/

/-- The list after the steps. -/
def applyAll (t : ImmType) (ops : List ArrayOp) (xs : Elements) : Elements :=
  ops.foldl (fun xs op => op.apply t.getTypeSize xs) xs

section

variable {junk : ℕ → BitVec 8} {t : ImmType} {imm imm' : Immediate} {xs ys : Elements}
  {op : ArrayOp} {ops : List ArrayOp}

theorem ArrayOp.Exact.amount_le {n : ℕ} (h : op.Exact t n) : op.amount ≤ n := by
  have hshift : ∀ {k}, k * t.getTypeSize * 8 ≤ uint32 (n * t.getTypeSize * 8) → k ≤ n := by
    intro k hk
    have hmod := Nat.mod_le (n * t.getTypeSize * 8) (2 ^ 32)
    rw [uint32] at hk
    exact Nat.le_of_mul_le_mul_right (show k * t.getTypeSize ≤ n * t.getTypeSize by omega)
      (getTypeSize_pos t)
  cases op with
  | copy => exact Nat.zero_le n
  | shl k =>
    simp only [ArrayOp.Exact] at h
    split at h
    · exact h.1.le.trans (Nat.zero_le n)
    · exact hshift h.2
  | lshr k =>
    simp only [ArrayOp.Exact] at h
    split at h
    · exact h.1.le.trans (Nat.zero_le n)
    · exact hshift h.2.1

theorem ArrayOp.Exact.length_apply (h : op.Exact t xs.length) :
    (op.apply t.getTypeSize xs).length = xs.length := by
  rw [ArrayOp.length_apply, max_eq_left h.amount_le]

theorem length_applyAll (h : ∀ op ∈ ops, op.Exact t xs.length) :
    (applyAll t ops xs).length = xs.length := by
  induction ops generalizing xs with
  | nil => rfl
  | cons op ops ih =>
    have hlen := (h op List.mem_cons_self).length_apply
    refine (ih fun op' hop' => ?_).trans hlen
    rw [hlen]
    exact h op' (List.mem_cons_of_mem _ hop')

/-- Zeros stay zeros. -/
theorem zeros_applyAll (h : ∀ x ∈ xs, x = zeros t.getTypeSize) :
    ∀ x ∈ applyAll t ops xs, x = zeros t.getTypeSize := by
  induction ops generalizing xs with
  | nil => exact h
  | cons op ops ih =>
    refine ih fun x hx => ?_
    cases op with
    | copy => exact h x hx
    | shl k =>
      rcases List.mem_append.mp hx with hx | hx
      · exact List.eq_of_mem_replicate hx
      · exact h x (List.mem_of_mem_take hx)
    | lshr k =>
      rcases List.mem_append.mp hx with hx | hx
      · exact h x (List.mem_of_mem_drop hx)
      · exact List.eq_of_mem_replicate hx

variable (junk t imm) in
/-- Every element of the list is extracted. -/
def Reads (xs : Elements) : Prop :=
  ∀ (i : ℕ) (x : List (BitVec 8)), xs[i]? = some x →
    fold junk .IMM_EXTRACT imm (index i) t = pure (scalar t x)

theorem Broken.not_reads (h : Broken t imm xs.length) : ¬ Reads junk t imm xs := by
  intro hreads
  cases h with
  | short hlt hnum =>
    have hread := hreads _ _ (List.getElem?_eq_getElem hlt)
    exact absurd ((fold_extract hnum).mp hread).2.2.1 (lt_irrefl _)
  | truncated htype hnum hn hsize hdata =>
    have hpos : 0 < xs.length := by
      by_contra hzero
      rw [Nat.eq_zero_of_not_pos hzero, Nat.zero_mul] at hsize
      omega
    have hread := hreads _ _ (List.getElem?_eq_getElem (show xs.length - 1 < xs.length by omega))
    obtain ⟨-, -, -, x, hx, -⟩ := (fold_extract (by omega)).mp hread
    rw [htype, Buffer.read_eq_none] at hx
    · cases hx
    · rwa [← Nat.succ_mul, Nat.succ_eq_add_one, Nat.sub_add_cancel hpos]
  | promoted htype ht hn =>
    have hread := hreads _ _ (List.getElem?_eq_getElem (Nat.pos_of_ne_zero hn))
    have heq := ((fold_extract (by decide)).mp hread).2.1
    rcases htype with h | h <;> rw [heq, h] at ht <;> exact absurd ht (by decide)

theorem scalar_inj {x y : List (BitVec 8)} (h : scalar t x = scalar t y) : x = y :=
  List.append_cancel_right (congrArg Immediate.defaultData h)

theorem Stores.reads_iff (h : Stores imm t ys) (ht : t ≠ TYPE_LARGE_INT)
    (hn : xs.length < 2 ^ 32) (hlen : ys.length = xs.length) :
    Reads junk t imm xs ↔ (t = TYPE_BOOL → xs = []) ∧ ys = xs := by
  have hread : ∀ {i} (hi : i < ys.length), Buffer.read imm.data (i * imm.type.getTypeSize)
      imm.type.getTypeSize = some (ys.get ⟨i, hi⟩) := by
    intro i hi
    rw [h.type]
    exact Buffer.read_flatten h.size h.data hi
  constructor
  · intro hreads
    refine ⟨fun hbool => ?_, List.ext_getElem? fun i => ?_⟩
    · by_contra hne
      have hx := hreads _ _ (List.getElem?_eq_getElem (List.length_pos_of_ne_nil hne))
      exact ((fold_extract (by decide)).mp hx).1.1 (h.type.trans hbool)
    · by_cases hi : i < xs.length
      · have hx := hreads _ _ (List.getElem?_eq_getElem hi)
        obtain ⟨-, -, -, x, hx, heq⟩ := (fold_extract (by omega)).mp hx
        rw [hread (hlen ▸ hi), Option.some_inj] at hx
        rw [h.type, ← hx] at heq
        rw [List.getElem?_eq_getElem hi, List.getElem?_eq_getElem (hlen ▸ hi), ← scalar_inj heq]
        rfl
      · rw [List.getElem?_eq_none (by omega), List.getElem?_eq_none (by omega)]
  · rintro ⟨hbool, rfl⟩ i x hx
    obtain ⟨hi, hget⟩ := List.getElem?_eq_some_iff.mp hx
    refine (fold_extract (by omega)).mpr ⟨⟨fun hb => ?_, by rwa [h.type]⟩, h.type.symm,
      by rwa [h.elemNum], x, ?_, by rw [h.type]⟩
    · rw [hbool (h.type.symm.trans hb)] at hi
      exact absurd hi (Nat.not_lt_zero _)
    · rw [hread hi, ← hget]
      rfl

theorem Broken.runAll (h : Broken t imm xs.length) (hrun : runAll junk t ops imm = pure imm') :
    Broken t imm' (applyAll t ops xs).length := by
  induction ops generalizing imm xs with
  | nil =>
    obtain rfl := pure_eq_pure.mp hrun
    exact h
  | cons op ops ih =>
    rw [Immediate.runAll, List.foldlM_cons] at hrun
    obtain ⟨imm1, hstep, hrun⟩ := bind_eq_pure.mp hrun
    have hbroken := h.run hstep
    rw [← ArrayOp.length_apply t.getTypeSize] at hbroken
    exact ih hbroken hrun

/-- A run of steps on stored elements, compared with another list. -/
theorem Stores.runAll_iff (h : Stores imm t ys) (ht : t ≠ TYPE_LARGE_INT)
    (hn : xs.length < 2 ^ 32) (hlen : ys.length = xs.length) :
    (∃ imm', runAll junk t ops imm = pure imm' ∧ Reads junk t imm' (applyAll t ops xs)) ↔
      (∀ op ∈ ops, op.Exact t xs.length) ∧ (t = TYPE_BOOL → xs = []) ∧
        applyAll t ops ys = applyAll t ops xs := by
  induction ops generalizing imm xs ys with
  | nil =>
    have hreads : Reads junk t imm xs ↔ (t = TYPE_BOOL → xs = []) ∧ ys = xs :=
      h.reads_iff ht hn hlen
    constructor
    · rintro ⟨imm', hrun, hall⟩
      obtain rfl := pure_eq_pure.mp hrun
      exact ⟨fun _ hop => absurd hop List.not_mem_nil, hreads.mp hall⟩
    · exact fun hall => ⟨imm, rfl, hreads.mpr hall.2⟩
  | cons op ops ih =>
    have hsplit : ∀ {imm'}, runAll junk t (op :: ops) imm = pure imm' ↔
        ∃ imm1, op.run junk t imm = pure imm1 ∧ runAll junk t ops imm1 = pure imm' := by
      intro imm'
      rw [Immediate.runAll, List.foldlM_cons]
      exact bind_eq_pure
    by_cases hexact : op.Exact t xs.length
    · have hxs := hexact.length_apply
      have hys := (hlen ▸ hexact : op.Exact t ys.length).length_apply
      obtain ⟨imm1, hstep, hstores⟩ := h.run (hlen ▸ hexact)
      have hih := ih hstores (show (op.apply t.getTypeSize xs).length < 2 ^ 32 by omega) (by omega)
      have hnil : op.apply t.getTypeSize xs = [] ↔ xs = [] := by
        rw [← List.length_eq_zero_iff, hxs, List.length_eq_zero_iff]
      rw [hxs, hnil] at hih
      simp only [List.forall_mem_cons, hexact, true_and]
      refine Iff.trans ?_ hih
      simp only [hsplit]
      constructor
      · rintro ⟨imm', ⟨imm2, hstep2, hrun⟩, hreads⟩
        obtain rfl := pure_eq_pure.mp (hstep.symm.trans hstep2)
        exact ⟨imm', hrun, hreads⟩
      · rintro ⟨imm', hrun, hreads⟩
        exact ⟨imm', ⟨imm1, hstep, hrun⟩, hreads⟩
    · refine iff_of_false ?_ fun hall => hexact (hall.1 op List.mem_cons_self)
      rintro ⟨imm', hrun, hreads⟩
      obtain ⟨imm1, hstep, hrun⟩ := hsplit.mp hrun
      have hbroken := h.broken (by omega) (hlen ▸ hexact) hstep
      rw [hlen, ← ArrayOp.length_apply t.getTypeSize] at hbroken
      exact (hbroken.runAll hrun).not_reads hreads

end

/-! ### Construction -/

section

variable {junk : ℕ → BitVec 8} {t : ImmType} {imm : Immediate} {xs : Elements}

/-- What the array constructor stores. -/
theorem stores_ofArray (hxs : ∀ x ∈ xs, x.length = t.getTypeSize)
    (hfits : (Source.array xs).Fits t) :
    ∃ imm, (Source.array xs).build junk t = pure imm ∧ Stores imm t xs := by
  obtain ⟨hsize, hinline⟩ := hfits
  have hlen := length_flatten hxs
  have hread : Buffer.read xs.flatten 0 (xs.length * t.getTypeSize) = some xs.flatten := by
    rw [← hlen]
    exact Buffer.read_prefix List.prefix_rfl
  simp only [Source.build, ofArray, uint32_of_lt hsize, hread, inside, pure_bind]
  by_cases hblock : uint32 (xs.length * xs.length) > 8
  · have hwrite : Buffer.write (malloc junk (xs.length * t.getTypeSize)) 0 xs.flatten =
        some xs.flatten := by
      rw [Buffer.write_of_le (by rw [length_malloc]; omega), List.take_zero, List.nil_append,
        Nat.zero_add, List.drop_eq_nil_of_le (by rw [length_malloc]; omega), List.append_nil]
    simp only [if_pos hblock, hwrite, pure_bind]
    exact ⟨_, rfl, rfl, rfl, hxs, List.prefix_rfl, fun h => absurd h (Option.some_ne_none _)⟩
  · have hle := hinline (not_lt.mp hblock)
    have hwrite : Buffer.write (zeros 8) 0 xs.flatten =
        some (xs.flatten ++ (zeros 8).drop xs.flatten.length) := by
      rw [Buffer.write_of_le (by rw [length_zeros]; omega), List.take_zero, List.nil_append,
        Nat.zero_add]
    simp only [if_neg hblock, hwrite, pure_bind]
    refine ⟨_, rfl, rfl, rfl, hxs, List.prefix_append _ _, fun _ => ?_⟩
    rw [data_none, List.length_append, List.length_drop, length_zeros]
    omega

/-- Without room for the elements the constructor writes outside, or keeps too few of them. -/
theorem broken_ofArray (hn : xs.length < 2 ^ 32) (hfits : ¬ (Source.array xs).Fits t)
    (hbuild : (Source.array xs).build junk t = pure imm) : Broken t imm xs.length := by
  obtain ⟨src, hread, h⟩ := bind_eq_pure.mp hbuild
  have hsrc := Buffer.length_read (inside_eq_pure.mp hread)
  have hlt : uint32 (xs.length * t.getTypeSize) < 2 ^ 32 := Nat.mod_lt _ (by decide)
  by_cases hsize : xs.length * t.getTypeSize < 2 ^ 32
  · rw [uint32_of_lt hsize] at hsrc
    split at h
    · next hblock => exact absurd ⟨hsize, fun hle => absurd hblock (not_lt.mpr hle)⟩ hfits
    · next hblock =>
      obtain ⟨word, hwrite, -⟩ := bind_eq_pure.mp h
      have hle := (Buffer.write_cases (inside_eq_pure.mp hwrite)).1
      rw [hsrc, length_zeros, Nat.zero_add] at hle
      exact absurd ⟨hsize, fun _ => hle⟩ hfits
  · split at h
    · obtain ⟨p, hwrite, h⟩ := bind_eq_pure.mp h
      obtain rfl := pure_eq_pure.mp h
      refine .truncated rfl rfl hn (by omega) ?_
      rw [data_some, Buffer.length_write (inside_eq_pure.mp hwrite), length_malloc]
      omega
    · obtain ⟨word, hwrite, h⟩ := bind_eq_pure.mp h
      obtain rfl := pure_eq_pure.mp h
      refine .truncated rfl rfl hn (by omega) ?_
      rw [data_none, Buffer.length_write (inside_eq_pure.mp hwrite), length_zeros]
      omega

/-- The loop of the vector constructor. -/
theorem pack_eq {first : Immediate} {imms : List Immediate} {off : ℕ} {storage : List (BitVec 8)}
    (hfirst : first.type = t)
    (himms : ∀ imm ∈ imms, imm.type = t ∧ imm.elemNum = 1 ∧ t.getTypeSize ≤ imm.data.length)
    (hroom : off + imms.length * t.getTypeSize ≤ storage.length) :
    ∃ storage', pack first imms off storage = pure storage' ∧ storage'.length = storage.length ∧
      storage.take off ++ ((Source.vector imms).elements t).flatten <+: storage' := by
  induction imms generalizing off storage with
  | nil =>
    refine ⟨storage, rfl, rfl, ?_⟩
    rw [Source.elements, List.map_nil, List.flatten_nil, List.append_nil]
    exact List.take_prefix _ _
  | cons imm imms ih =>
    obtain ⟨htype, hnum, hdata⟩ := himms imm List.mem_cons_self
    rw [List.length_cons, Nat.succ_mul] at hroom
    have hread : Buffer.read imm.data 0 t.getTypeSize = some (imm.data.take t.getTypeSize) := by
      rw [Buffer.read_of_le (by omega), List.drop_zero]
    have hlen : (imm.data.take t.getTypeSize).length = t.getTypeSize := by
      rw [List.length_take]
      omega
    have hwrite : Buffer.write storage off (imm.data.take t.getTypeSize) = some _ :=
      Buffer.write_of_le (by rw [hlen]; omega)
    have hlength := Buffer.length_write hwrite
    obtain ⟨storage', hpack, hsame, hprefix⟩ := ih
      (fun imm' himm' => himms imm' (List.mem_cons_of_mem _ himm'))
      (show off + t.getTypeSize + imms.length * t.getTypeSize ≤ _ by rw [hlength]; omega)
    refine ⟨storage', ?_, hsame.trans hlength, ?_⟩
    · rw [pack, htype, hread, hfirst, assert, if_pos ⟨rfl, hnum⟩]
      simp only [inside, hwrite, pure_bind]
      exact hpack
    · have htake : (storage.take off).length + (imm.data.take t.getTypeSize).length =
          off + t.getTypeSize := by
        rw [hlen, List.length_take, Nat.min_eq_left (by omega)]
      rw [List.take_left' (by rw [List.length_append, htake])] at hprefix
      rw [Source.elements, List.map_cons, List.flatten_cons, ← List.append_assoc]
      exact hprefix

/-- The elements that are left after construction. -/
def Source.stored (t : ImmType) (src : Source) : Elements :=
  if src.Lost t then List.replicate (src.elements t).length (zeros t.getTypeSize)
  else src.elements t

theorem Source.length_stored (src : Source) : (src.stored t).length = (src.elements t).length := by
  rw [stored]
  split
  · exact List.length_replicate
  · rfl

theorem zeros_prefix {k : ℕ} (hk : k ≤ 8) : zeros k <+: zeros 8 := by
  refine ⟨zeros (8 - k), ?_⟩
  rw [zeros, zeros, zeros, ← List.replicate_add, Nat.add_sub_cancel' hk]

/-- What the vector constructor stores. -/
theorem stores_ofVector {immVec : List Immediate} (ht : t ≠ TYPE_LARGE_INT)
    (hvalid : (Source.vector immVec).Valid t) (hfits : (Source.vector immVec).Fits t) :
    ∃ imm, (Source.vector immVec).build junk t = pure imm ∧
      Stores imm t ((Source.vector immVec).stored t) := by
  obtain ⟨hne, hlt⟩ := hfits
  have hsize : ∀ x ∈ (Source.vector immVec).elements t, x.length = t.getTypeSize := by
    intro x hx
    obtain ⟨imm, himm, rfl⟩ := List.mem_map.mp hx
    have := (hvalid imm himm).2.2
    rw [List.length_take]
    omega
  match immVec, hne with
  | [imm], _ =>
    obtain ⟨type, n, word, block⟩ := imm
    obtain ⟨htype, hnum, hdata⟩ := hvalid _ (List.mem_singleton_self _)
    obtain rfl : type = t := htype
    obtain rfl : n = 1 := hnum
    cases block with
    | none =>
      refine ⟨⟨type, 1, zeros 8, none⟩, rfl, ?_⟩
      have hstored : (Source.vector [⟨type, 1, word, none⟩]).stored type =
          [zeros type.getTypeSize] := if_pos (show none = none from rfl)
      rw [hstored]
      refine ⟨rfl, rfl, fun x hx => ?_, ?_, fun _ => length_zeros 8⟩
      · rw [List.mem_singleton.mp hx, length_zeros]
      · rw [List.flatten_singleton]
        exact zeros_prefix (getTypeSize_le type)
    | some p =>
      have hle := getTypeSize_le type
      have hone : uint32 (1 * type.getTypeSize) = type.getTypeSize := by
        rw [Nat.one_mul]
        exact uint32_of_lt (by omega)
      refine ⟨⟨type, 1, zeros 8, some (p.take type.getTypeSize)⟩, ?_, ?_⟩
      · have hassign : assign junk ⟨type, 1, word, some p⟩ = _ := assign_some junk hone hdata
        rw [Source.build, ofVector, hassign]
        rfl
      · have hstored : (Source.vector [⟨type, 1, word, some p⟩]).stored type =
            [p.take type.getTypeSize] := if_neg (show some p ≠ none from Option.some_ne_none p)
        rw [hstored]
        refine ⟨rfl, rfl, hsize, ?_, fun h => absurd h (Option.some_ne_none _)⟩
        rw [List.flatten_singleton]
        exact List.prefix_rfl
  | first :: second :: rest, _ =>
    obtain ⟨htype, hnum, -⟩ := hvalid first List.mem_cons_self
    set immVec := first :: second :: rest with hvec
    set total := t.getTypeSize * immVec.length with htotal
    have hmul : immVec.length * t.getTypeSize = total := Nat.mul_comm _ _
    have hroom : 0 + immVec.length * t.getTypeSize ≤
        (malloc junk (if total < 8 then 8 else total)).length := by
      rw [length_malloc, hmul]
      split <;> omega
    obtain ⟨storage, hpack, hlength, hprefix⟩ := pack_eq htype hvalid hroom
    rw [List.take_zero, List.nil_append] at hprefix
    rw [length_malloc] at hlength
    have hbuild : (Source.vector immVec).build junk t =
        if total < 8 then pure ⟨t, immVec.length, zeros 8, none⟩
        else pure ⟨t, immVec.length, zeros 8, some storage⟩ := by
      simp only [Source.build, hvec, ofVector]
      rw [← hvec, htype, ← htotal, hpack, uint32_of_lt hlt, if_neg (not_le.mpr hlt), assert,
        if_pos ⟨ht, hnum⟩]
      rfl
    have hlost : (Source.vector immVec).Lost t ↔ total < 8 := by
      rw [← hmul]
      rfl
    rw [hbuild]
    by_cases hsmall : total < 8
    · rw [if_pos hsmall]
      have hstored : (Source.vector immVec).stored t =
          List.replicate immVec.length (zeros t.getTypeSize) := by
        rw [Source.stored, if_pos (hlost.mpr hsmall), Source.elements, List.length_map]
      rw [hstored]
      refine ⟨_, rfl, rfl, List.length_replicate.symm, size_replicate, ?_, fun _ => length_zeros 8⟩
      rw [flatten_zeros, hmul]
      exact zeros_prefix hsmall.le
    · rw [if_neg hsmall]
      have hstored : (Source.vector immVec).stored t = (Source.vector immVec).elements t :=
        if_neg (mt hlost.mp hsmall)
      rw [hstored]
      exact ⟨_, rfl, rfl, (List.length_map _).symm, hsize, hprefix,
        fun h => absurd h (Option.some_ne_none _)⟩

end

section

variable {junk : ℕ → BitVec 8} {t : ImmType} {src : Source} {ops : List ArrayOp}

theorem vector_fails {immVec : List Immediate} (hfits : ¬ (Source.vector immVec).Fits t)
    {imm : Immediate} : (Source.vector immVec).build junk t ≠ pure imm := by
  intro h
  match immVec with
  | [] => cases h
  | [imm] => exact hfits ⟨List.cons_ne_nil _ _, show 1 < 2 ^ 32 by decide⟩
  | first :: second :: rest =>
    obtain ⟨_, -, h⟩ := bind_eq_pure.mp h
    by_cases hlen : 2 ^ 32 ≤ (first :: second :: rest).length
    · simp only [if_pos hlen] at h
      cases h
    · exact hfits ⟨List.cons_ne_nil _ _, not_le.mp hlen⟩

/-- Steps on what is left are those on the list, if that ends in zeros where nothing is left. -/
theorem applyAll_stored (hexact : ∀ op ∈ ops, op.Exact t (src.elements t).length) :
    applyAll t ops (src.stored t) = applyAll t ops (src.elements t) ↔
      (src.Lost t → ∀ x ∈ applyAll t ops (src.elements t), x = zeros t.getTypeSize) := by
  by_cases hlost : src.Lost t
  · have hzeros : ∀ x ∈ applyAll t ops (src.stored t), x = zeros t.getTypeSize := by
      rw [Source.stored, if_pos hlost]
      exact zeros_applyAll fun x hx => List.eq_of_mem_replicate hx
    have hlen : (applyAll t ops (src.stored t)).length =
        (applyAll t ops (src.elements t)).length := by
      rw [length_applyAll hexact, length_applyAll (by rwa [src.length_stored]), src.length_stored]
    constructor
    · intro heq _
      rwa [← heq]
    · intro h
      rw [List.eq_replicate_of_mem hzeros, List.eq_replicate_of_mem (h hlost), hlen]
  · rw [Source.stored, if_neg hlost]
    exact iff_of_true rfl fun h => absurd h hlost

theorem elements_lt (hvalid : src.Valid t) (hfits : src.Fits t) :
    (src.elements t).length < 2 ^ 32 := by
  cases src with
  | array xs => exact hvalid.1
  | vector immVec => exact (List.length_map _).trans_lt hfits.2

end

/-- Construction, copies and shifts keep the elements exactly where the storage has room for them,
what was stored is not cleared, and no assertion is in the way. -/
theorem array_exact_iff (junk : ℕ → BitVec 8) {t : ImmType} (ht : t ≠ TYPE_LARGE_INT)
    {src : Source} (hvalid : src.Valid t) (ops : List ArrayOp) :
    Keeps junk t src ops ↔ src.Fits t ∧ (∀ op ∈ ops, op.Exact t (src.elements t).length) ∧
      (t = TYPE_BOOL → src.elements t = []) ∧
        (src.Lost t → ∀ x ∈ applyAll t ops (src.elements t), x = zeros t.getTypeSize) := by
  have hkeeps : Keeps junk t src ops ↔ ∃ imm, src.build junk t = pure imm ∧
      ∃ imm', runAll junk t ops imm = pure imm' ∧
        Reads junk t imm' (applyAll t ops (src.elements t)) := by
    constructor
    · rintro ⟨imm', hrun, hreads⟩
      obtain ⟨imm, hbuild, hrun⟩ := bind_eq_pure.mp hrun
      exact ⟨imm, hbuild, imm', hrun, hreads⟩
    · rintro ⟨imm, hbuild, imm', hrun, hreads⟩
      exact ⟨imm', bind_eq_pure.mpr ⟨imm, hbuild, hrun⟩, hreads⟩
  rw [hkeeps]
  by_cases hfits : src.Fits t
  · have hstores : ∃ imm, src.build junk t = pure imm ∧ Stores imm t (src.stored t) := by
      cases src with
      | array xs =>
        obtain ⟨imm, hbuild, hstores⟩ := stores_ofArray hvalid.2 hfits
        refine ⟨imm, hbuild, ?_⟩
        rwa [Source.stored, if_neg (show ¬ (Source.array xs).Lost t from id)]
      | vector immVec => exact stores_ofVector ht hvalid hfits
    obtain ⟨imm, hbuild, hstores⟩ := hstores
    have hrun : (∃ imm', runAll junk t ops imm = pure imm' ∧
        Reads junk t imm' (applyAll t ops (src.elements t))) ↔ _ :=
      hstores.runAll_iff ht (elements_lt hvalid hfits) src.length_stored
    rw [and_iff_right hfits]
    refine Iff.trans ?_ (hrun.trans (and_congr_right fun hexact =>
      and_congr_right fun _ => applyAll_stored hexact))
    constructor
    · rintro ⟨imm2, hbuild2, hall⟩
      obtain rfl := pure_eq_pure.mp (hbuild.symm.trans hbuild2)
      exact hall
    · exact fun hall => ⟨imm, hbuild, hall⟩
  · refine iff_of_false ?_ fun h => hfits h.1
    rintro ⟨imm, hbuild, imm', hrun, hreads⟩
    cases src with
    | array xs => exact ((broken_ofArray hvalid.1 hfits hbuild).runAll hrun).not_reads hreads
    | vector immVec => exact vector_fails hfits hbuild

/-- Three elements, shifted and copied. -/
theorem array_exact_iff_three : Keeps (fun _ => 0) TYPE_U32
    (.array [[1, 0, 0, 0], [2, 0, 0, 0], [3, 0, 0, 0]]) [.copy, .shl 1, .lshr 2] :=
  (array_exact_iff (fun _ => 0) (by decide) (by decide) [.copy, .shl 1, .lshr 2]).mpr
    ⟨by decide, by decide, by decide, by decide⟩

/-- The word of two bytes is cleared behind the copy. -/
theorem pair_lost : ∃ imm, (Source.vector [ofWord TYPE_U8 1, ofWord TYPE_U8 2]).build (fun _ => 0)
    TYPE_U8 = pure imm ∧ fold (fun _ => 0) .IMM_EXTRACT imm (index 0) TYPE_U8 =
      pure (scalar TYPE_U8 [0]) ∧ scalar TYPE_U8 [0] ≠ ofWord TYPE_U8 1 :=
  ⟨_, rfl, rfl, by decide⟩

end Immediate

end Ir
