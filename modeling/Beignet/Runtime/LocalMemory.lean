/-
Shared local memory: the offsets that `cl_curbe_fill` gives to the `__local` pointers of a kernel,
and the test of `cl_command_queue_ND_range_gen7` on the last of them
(`cl_command_queue_gen7.c`).

A size is kept in a bit-field of 30 bits (`cl_kernel.h`), and the offset is a word of 32 bits; only
the end is compared with the size of the local memory.

* `loop_stacked` — the offsets when nothing wraps;
* `loop_wrapped` — what a wrap leaves, where alignments are powers of two;
* `small_of_below` — the sizes of ranges that end early enough fit in the bit-field;
* **`layout_exact`** — when the layout is right.
-/
import Beignet.Lib.Layout

namespace Runtime

namespace LocalMemory

open Layout

/-! ### The code -/

/-- An argument; the offset in the curbe is negative for one that is not used. -/
structure Arg where
  /-- `type == GBE_ARG_LOCAL_PTR` -/
  isLocal : Bool
  align : BitVec 32
  curbe : ℤ
  /-- the size that `clSetKernelArg` gets -/
  sz : BitVec 64

/-- The bit-field that keeps the size. -/
def Arg.local_sz (arg : Arg) : BitVec 30 := arg.sz.setWidth 30

/-- An offset that is written to the curbe, for a range of this size. -/
structure Placed where
  align : BitVec 32
  offset : BitVec 32
  size : BitVec 64
  deriving DecidableEq

def Placed.segment (p : Placed) : Segment := ⟨p.offset.toNat, p.size.toNat⟩

/-- `ALIGN` on an `int32_t` and a `uint32_t`. -/
def ALIGN (a b : BitVec 32) : BitVec 32 := if a % b ≠ 0 then a + b - a % b else a

/-- The loop over the arguments: the offsets, and `slm_offset` after it. -/
def loop : List Arg → BitVec 32 → List Placed × BitVec 32
  | [], slm_offset => ([], slm_offset)
  | arg :: args, slm_offset =>
    if ¬ arg.isLocal then loop args slm_offset
    else
      let slm_offset := ALIGN slm_offset arg.align
      if arg.curbe < 0 then loop args slm_offset
      else
        let (placed, slm_sz) := loop args (slm_offset + arg.local_sz.setWidth 32)
        (⟨arg.align, slm_offset, arg.sz⟩ :: placed, slm_sz)

/-- The launch goes on, with these offsets and this size. -/
def cl_curbe_fill (args : List Arg) (slm_size : BitVec 32) (local_mem_size : BitVec 64) :
    Option (List Placed × BitVec 32) :=
  let (placed, slm_sz) := loop args slm_size
  if slm_sz.setWidth 64 > local_mem_size then none else some (placed, slm_sz)

/-! ### The layout -/

/-- Set by `clSetKernelArg`, which refuses a size of 0; the alignment is asserted. -/
def Prepared (args : List Arg) : Prop :=
  ∀ arg ∈ args, arg.isLocal → arg.align ≠ 0 ∧ arg.sz ≠ 0

/-- The ranges are aligned, apart from each other and from the static memory, and below the size. -/
structure Exact (slm_size slm_sz : BitVec 32) (placed : List Placed) : Prop where
  aligned : ∀ p ∈ placed, p.align.toNat ∣ p.offset.toNat
  disjoint : placed.Pairwise fun p q => Disjoint p.segment.bytes q.segment.bytes
  static : ∀ p ∈ placed, Disjoint p.segment.bytes (Segment.bytes ⟨0, slm_size.toNat⟩)
  below : ∀ p ∈ placed, p.segment.finish ≤ slm_sz.toNat

/-- The end of the layout in unbounded integers. -/
def exactEnd : List Arg → ℕ → ℕ
  | [], off => off
  | arg :: args, off =>
    if ¬ arg.isLocal then exactEnd args off
    else
      let off := roundUp off arg.align.toNat
      if arg.curbe < 0 then exactEnd args off else exactEnd args (off + arg.sz.toNat)

/-- The sizes of the pointers that have a place in the curbe fit in the bit-field. -/
def Small (args : List Arg) : Prop :=
  ∀ arg ∈ args, arg.isLocal → 0 ≤ arg.curbe → arg.sz.toNat < 2 ^ 30

def PowerOfTwo (args : List Arg) : Prop :=
  ∀ arg ∈ args, arg.isLocal → ∃ k, arg.align.toNat = 2 ^ k

/-! ### Without a wrap -/

/-- The word is the next multiple, modulo 2 ^ 32. -/
theorem toNat_ALIGN (a b : BitVec 32) :
    (ALIGN a b).toNat = roundUp a.toNat b.toNat % 2 ^ 32 := by
  have hmod : (a % b).toNat = a.toNat % b.toNat := BitVec.toNat_umod
  have hiff : a % b ≠ 0 ↔ a.toNat % b.toNat ≠ 0 := by
    rw [← hmod, not_iff_not]
    exact ⟨fun h => by rw [h]; rfl, fun h => BitVec.eq_of_toNat_eq h⟩
  have hle : a.toNat % b.toNat ≤ a.toNat := Nat.mod_le _ _
  have ha := a.isLt
  have hb := b.isLt
  rw [ALIGN, roundUp]
  by_cases h : a % b ≠ 0
  · rw [if_pos h, if_pos (hiff.mp h), BitVec.toNat_sub, BitVec.toNat_add, hmod]
    omega
  · rw [if_neg h, if_neg (fun h' => h (hiff.mpr h')), Nat.mod_eq_of_lt ha]

theorem le_exactEnd {args : List Arg} (hset : Prepared args) (off : ℕ) :
    off ≤ exactEnd args off := by
  induction args generalizing off with
  | nil => exact le_rfl
  | cons arg args ih =>
    have ih := fun off => ih (fun a ha => hset a (List.mem_cons_of_mem _ ha)) off
    rw [exactEnd]
    split
    · exact ih off
    · next hlocal =>
      have hpos : 0 < arg.align.toNat := by
        have hne := (hset arg List.mem_cons_self (not_not.mp hlocal)).1
        exact Nat.pos_of_ne_zero fun h => hne (BitVec.eq_of_toNat_eq h)
      have hround := le_roundUp (a := off) hpos
      simp only
      split
      · exact hround.trans (ih _)
      · exact hround.trans ((Nat.le_add_right _ _).trans (ih _))

theorem Prepared.tail {arg : Arg} {args : List Arg} (h : Prepared (arg :: args)) : Prepared args :=
  fun a ha => h a (List.mem_cons_of_mem _ ha)

theorem Prepared.align_pos {arg : Arg} {args : List Arg} (h : Prepared (arg :: args))
    (hlocal : arg.isLocal) : 0 < arg.align.toNat :=
  Nat.pos_of_ne_zero fun hzero =>
    (h arg List.mem_cons_self hlocal).1 (BitVec.eq_of_toNat_eq hzero)

theorem Prepared.size_pos {arg : Arg} {args : List Arg} (h : Prepared (arg :: args))
    (hlocal : arg.isLocal) : 0 < arg.sz.toNat :=
  Nat.pos_of_ne_zero fun hzero =>
    (h arg List.mem_cons_self hlocal).2 (BitVec.eq_of_toNat_eq hzero)

theorem Small.tail {arg : Arg} {args : List Arg} (h : Small (arg :: args)) : Small args :=
  fun a ha => h a (List.mem_cons_of_mem _ ha)

theorem toNat_add_size {off : BitVec 32} {arg : Arg} {args : List Arg} (h : Small (arg :: args))
    (hlocal : arg.isLocal) (hcurbe : ¬ arg.curbe < 0) :
    (off + arg.local_sz.setWidth 32).toNat = (off.toNat + arg.sz.toNat) % 2 ^ 32 := by
  have hlt := h arg List.mem_cons_self hlocal (not_lt.mp hcurbe)
  rw [BitVec.toNat_add, BitVec.toNat_setWidth, Arg.local_sz, BitVec.toNat_setWidth,
    Nat.mod_eq_of_lt hlt, Nat.add_mod_mod]

theorem PowerOfTwo.tail {arg : Arg} {args : List Arg} (h : PowerOfTwo (arg :: args)) :
    PowerOfTwo args :=
  fun a ha => h a (List.mem_cons_of_mem _ ha)

/-- Ranges one behind the other, when the end does not wrap. -/
theorem loop_stacked {args : List Arg} (hprep : Prepared args) (hsmall : Small args)
    {off : BitVec 32} (h : exactEnd args off.toNat < 2 ^ 32) :
    (loop args off).2.toNat = exactEnd args off.toNat ∧
      Stacked off.toNat ((loop args off).1.map Placed.segment) ∧
      finish off.toNat ((loop args off).1.map Placed.segment) ≤ (loop args off).2.toNat ∧
      ∀ p ∈ (loop args off).1, p.align.toNat ∣ p.offset.toNat := by
  induction args generalizing off with
  | nil => exact ⟨rfl, trivial, le_rfl, fun p hp => absurd hp List.not_mem_nil⟩
  | cons arg args ih =>
    have ih := fun off => @ih hprep.tail hsmall.tail off
    by_cases hlocal : arg.isLocal = true
    swap
    · rw [exactEnd, if_pos hlocal] at h ⊢
      rw [loop, if_pos hlocal]
      exact ih off h
    have hpos := hprep.align_pos hlocal
    have hround := le_roundUp (a := off.toNat) hpos
    rw [exactEnd, if_neg (not_not.mpr hlocal)] at h ⊢
    rw [loop, if_neg (not_not.mpr hlocal)]
    simp only at h ⊢
    by_cases hcurbe : arg.curbe < 0
    · rw [if_pos hcurbe] at h ⊢
      have hle := le_exactEnd hprep.tail (roundUp off.toNat arg.align.toNat)
      have halign : (ALIGN off arg.align).toNat = roundUp off.toNat arg.align.toNat := by
        rw [toNat_ALIGN, Nat.mod_eq_of_lt (by omega)]
      rw [if_pos hcurbe]
      rw [← halign] at h ⊢
      obtain ⟨hend, hstacked, hfinish, hdvd⟩ := ih _ h
      refine ⟨hend, hstacked.mono (by omega), ?_, hdvd⟩
      rcases finish_mem off.toNat ((loop args (ALIGN off arg.align)).1.map Placed.segment) with
        heq | ⟨s, hs, heq⟩
      · have := hstacked.le_finish
        omega
      · have := hstacked.finish_le s hs
        omega
    · rw [if_neg hcurbe] at h ⊢
      have hle := le_exactEnd hprep.tail
        (roundUp off.toNat arg.align.toNat + arg.sz.toNat)
      have halign : (ALIGN off arg.align).toNat = roundUp off.toNat arg.align.toNat := by
        rw [toNat_ALIGN, Nat.mod_eq_of_lt (by omega)]
      have hnext : (ALIGN off arg.align + arg.local_sz.setWidth 32).toNat =
          roundUp off.toNat arg.align.toNat + arg.sz.toNat := by
        rw [toNat_add_size hsmall hlocal hcurbe, halign, Nat.mod_eq_of_lt (by omega)]
      rw [if_neg hcurbe]
      rw [← hnext] at h ⊢
      obtain ⟨hend, hstacked, hfinish, hdvd⟩ := ih _ h
      have hsegment : Segment.finish ⟨(ALIGN off arg.align).toNat, arg.sz.toNat⟩ =
          (ALIGN off arg.align + arg.local_sz.setWidth 32).toNat := by
        rw [hnext, ← halign]
        rfl
      refine ⟨hend, ⟨?_, ?_⟩, ?_, ?_⟩
      · show off.toNat ≤ (ALIGN off arg.align).toNat
        omega
      · show Stacked (Segment.finish ⟨(ALIGN off arg.align).toNat, arg.sz.toNat⟩) _
        rw [hsegment]
        exact hstacked
      · show finish (Segment.finish ⟨(ALIGN off arg.align).toNat, arg.sz.toNat⟩) _ ≤ _
        rw [hsegment]
        exact hfinish
      · intro p hp
        rcases List.mem_cons.mp hp with rfl | hp
        · show arg.align.toNat ∣ (ALIGN off arg.align).toNat
          rw [halign]
          exact dvd_roundUp hpos
        · exact hdvd p hp

/-- The layout when nothing wraps. -/
theorem exact_of_end {args : List Arg} (hprep : Prepared args) (hsmall : Small args)
    {slm_size : BitVec 32} (h : exactEnd args slm_size.toNat < 2 ^ 32) :
    Exact slm_size (loop args slm_size).2 (loop args slm_size).1 := by
  obtain ⟨-, hstacked, hfinish, hdvd⟩ := loop_stacked hprep hsmall h
  refine ⟨hdvd, ?_, ?_, ?_⟩
  · have hpair := hstacked.pairwise
    rw [List.pairwise_map] at hpair
    exact hpair.imp fun hle => Set.Ico_disjoint_Ico.mpr (by omega)
  · intro p hp
    have hle := hstacked.le_offset _ (List.mem_map_of_mem hp)
    refine Set.Ico_disjoint_Ico.mpr ?_
    simp only [Segment.finish, Nat.zero_add]
    omega
  · intro p hp
    exact (hstacked.finish_le _ (List.mem_map_of_mem hp)).trans hfinish

/-! ### With a wrap -/

/-- From 0 on, the first range is at 0. -/
theorem loop_zero (args : List Arg) :
    (loop args 0).1 = [] ∧ (loop args 0).2 = 0 ∨
      ∃ p placed, (loop args 0).1 = p :: placed ∧ p.offset = 0 := by
  induction args with
  | nil => exact .inl ⟨rfl, rfl⟩
  | cons arg args ih =>
    have halign : ALIGN 0 arg.align = 0 := by
      have hmod : (0 : BitVec 32) % arg.align = 0 := BitVec.zero_umod
      rw [ALIGN, hmod]
      rfl
    rw [loop]
    split
    · exact ih
    · simp only [halign]
      split
      · exact ih
      · exact .inr ⟨_, _, rfl, rfl⟩

/-- A multiple of a power of two that wraps is 0. -/
theorem ALIGN_wrapped {off align : BitVec 32} {k : ℕ} (hk : align.toNat = 2 ^ k)
    (h : 2 ^ 32 ≤ roundUp off.toNat align.toNat) : ALIGN off align = 0 := by
  have hpos : 0 < align.toNat := by
    rw [hk]
    exact Nat.two_pow_pos k
  have hk32 : k ≤ 32 := by
    by_contra hlt
    have := Nat.pow_lt_pow_right Nat.one_lt_two (not_le.mp hlt)
    have := align.isLt
    omega
  have hle : roundUp off.toNat align.toNat ≤ 2 ^ 32 :=
    roundUp_le_of_dvd hpos off.isLt.le (by
      rw [hk]
      exact pow_dvd_pow 2 hk32)
  apply BitVec.eq_of_toNat_eq
  rw [toNat_ALIGN, Nat.le_antisymm hle h]
  rfl

/-- A wrap leaves a range that is not below 2 ^ 32, a range at 0, or a size of 0. -/
theorem loop_wrapped {args : List Arg} (hprep : Prepared args) (hsmall : Small args)
    (hpow : PowerOfTwo args) {off : BitVec 32} (hoff : 0 < off.toNat)
    (h : 2 ^ 32 ≤ exactEnd args off.toNat) :
    (∃ p ∈ (loop args off).1, 2 ^ 32 ≤ p.segment.finish ∨ p.offset = 0) ∨
      (loop args off).2 = 0 := by
  induction args generalizing off with
  | nil => exact absurd off.isLt (not_lt.mpr h)
  | cons arg args ih =>
    have ih := fun off => @ih hprep.tail hsmall.tail hpow.tail off
    by_cases hlocal : arg.isLocal = true
    swap
    · rw [exactEnd, if_pos hlocal] at h
      rw [loop, if_pos hlocal]
      exact ih off hoff h
    obtain ⟨k, hk⟩ := hpow arg List.mem_cons_self hlocal
    have hround := le_roundUp (a := off.toNat) (hprep.align_pos hlocal)
    rw [exactEnd, if_neg (not_not.mpr hlocal)] at h
    rw [loop, if_neg (not_not.mpr hlocal)]
    simp only at h ⊢
    by_cases hwrap : 2 ^ 32 ≤ roundUp off.toNat arg.align.toNat
    · -- the offset is set back to 0
      rw [ALIGN_wrapped hk hwrap]
      split
      · rcases loop_zero args with ⟨-, hzero⟩ | ⟨p, placed, hp, hzero⟩
        · exact .inr hzero
        · exact .inl ⟨p, by rw [hp]; exact List.mem_cons_self, .inr hzero⟩
      · exact .inl ⟨_, List.mem_cons_self, .inr rfl⟩
    · have halign : (ALIGN off arg.align).toNat = roundUp off.toNat arg.align.toNat := by
        rw [toNat_ALIGN, Nat.mod_eq_of_lt (by omega)]
      by_cases hcurbe : arg.curbe < 0
      · rw [if_pos hcurbe] at h ⊢
        rw [← halign] at h
        exact ih _ (by omega) h
      · rw [if_neg hcurbe] at h ⊢
        by_cases hend : 2 ^ 32 ≤ roundUp off.toNat arg.align.toNat + arg.sz.toNat
        · refine .inl ⟨_, List.mem_cons_self, .inl ?_⟩
          show 2 ^ 32 ≤ (ALIGN off arg.align).toNat + arg.sz.toNat
          omega
        · have hnext : (ALIGN off arg.align + arg.local_sz.setWidth 32).toNat =
              roundUp off.toNat arg.align.toNat + arg.sz.toNat := by
            rw [toNat_add_size hsmall hlocal hcurbe, halign, Nat.mod_eq_of_lt (by omega)]
          rw [← hnext] at h
          rcases ih _ (by omega) h with ⟨p, hp, hbad⟩ | hzero
          · exact .inl ⟨p, List.mem_cons_of_mem _ hp, hbad⟩
          · exact .inr hzero

/-- The ranges are not empty. -/
theorem size_pos {args : List Arg} (hprep : Prepared args) (off : BitVec 32) :
    ∀ p ∈ (loop args off).1, 0 < p.size.toNat := by
  induction args generalizing off with
  | nil => exact fun p hp => absurd hp List.not_mem_nil
  | cons arg args ih =>
    intro p hp
    rw [loop] at hp
    split at hp
    · exact ih hprep.tail _ p hp
    · next hlocal =>
      simp only at hp
      split at hp
      · exact ih hprep.tail _ p hp
      · rcases List.mem_cons.mp hp with rfl | hp
        · exact hprep.size_pos (not_not.mp hlocal)
        · exact ih hprep.tail _ p hp

/-- A layout that starts above 0, and stays below its size without a range at 0, does not wrap. -/
theorem end_lt_of_pos {args : List Arg} (hprep : Prepared args) (hsmall : Small args)
    (hpow : PowerOfTwo args) {off : BitVec 32} (hoff : 0 < off.toNat)
    (hbelow : ∀ p ∈ (loop args off).1, p.segment.finish ≤ (loop args off).2.toNat)
    (hzero : ∀ p ∈ (loop args off).1, p.offset ≠ 0) (hpos : 0 < (loop args off).2.toNat) :
    exactEnd args off.toNat < 2 ^ 32 := by
  by_contra hge
  rcases loop_wrapped hprep hsmall hpow hoff (not_lt.mp hge) with ⟨p, hp, hbad | hbad⟩ | hbad
  · have := hbelow p hp
    have := (loop args off).2.isLt
    omega
  · exact hzero p hp hbad
  · rw [hbad] at hpos
    exact absurd hpos (Nat.lt_irrefl 0)

/-- Two ranges that both have the byte 0. -/
theorem not_disjoint_of_zero {s t : Segment} (hs : s.offset = 0) (ht : t.offset = 0)
    (hspos : 0 < s.size) (htpos : 0 < t.size) : ¬ Disjoint s.bytes t.bytes := by
  intro h
  have hmem : 0 ∈ s.bytes := ⟨hs.le, by rw [Segment.finish]; omega⟩
  have hmem' : 0 ∈ t.bytes := ⟨ht.le, by rw [Segment.finish]; omega⟩
  exact Set.disjoint_left.mp h hmem hmem'

/-- The first range of a layout that starts at 0 is at 0, and the only one there. -/
theorem end_lt_of_zero {args : List Arg} (hprep : Prepared args) (hsmall : Small args)
    (hpow : PowerOfTwo args)
    (hbelow : ∀ p ∈ (loop args 0).1, p.segment.finish ≤ (loop args 0).2.toNat)
    (hdisjoint : (loop args 0).1.Pairwise fun p q => Disjoint p.segment.bytes q.segment.bytes)
    (hsome : (loop args 0).1 ≠ []) : exactEnd args 0 < 2 ^ 32 := by
  induction args with
  | nil => exact absurd rfl hsome
  | cons arg args ih =>
    have ih := ih hprep.tail hsmall.tail hpow.tail
    by_cases hlocal : arg.isLocal = true
    swap
    · rw [loop, if_pos hlocal] at hbelow hdisjoint hsome
      rw [exactEnd, if_pos hlocal]
      exact ih hbelow hdisjoint hsome
    have halign : ALIGN 0 arg.align = 0 := by
      have hmod : (0 : BitVec 32) % arg.align = 0 := BitVec.zero_umod
      rw [ALIGN, hmod]
      rfl
    have hround : roundUp 0 arg.align.toNat = 0 := by
      rw [roundUp, Nat.zero_mod]
      rfl
    rw [loop, if_neg (not_not.mpr hlocal)] at hbelow hdisjoint hsome
    rw [exactEnd, if_neg (not_not.mpr hlocal)]
    simp only [halign, hround] at hbelow hdisjoint hsome ⊢
    by_cases hcurbe : arg.curbe < 0
    · rw [if_pos hcurbe] at hbelow hdisjoint hsome ⊢
      exact ih hbelow hdisjoint hsome
    · rw [if_neg hcurbe] at hbelow hdisjoint hsome ⊢
      have hsize := hprep.size_pos hlocal
      have hfirst := hbelow _ List.mem_cons_self
      simp only [Segment.finish, Placed.segment] at hfirst
      have hz : (0 : BitVec 32).toNat = 0 := rfl
      have hnext : (0 + arg.local_sz.setWidth 32 : BitVec 32).toNat = 0 + arg.sz.toNat := by
        rw [toNat_add_size hsmall hlocal hcurbe, hz, Nat.mod_eq_of_lt (by omega)]
      rw [← hnext]
      refine end_lt_of_pos hprep.tail hsmall.tail hpow.tail (by omega)
        (fun p hp => hbelow p (List.mem_cons_of_mem _ hp)) (fun p hp hoff => ?_) (by omega)
      have hpair := List.rel_of_pairwise_cons hdisjoint hp
      refine not_disjoint_of_zero rfl ?_ hsize (size_pos hprep.tail _ p hp) hpair
      show p.offset.toNat = 0
      rw [hoff]
      rfl

/-- Every pointer with a place in the curbe has its range. -/
theorem exists_placed {args : List Arg} (off : BitVec 32) :
    ∀ arg ∈ args, arg.isLocal → 0 ≤ arg.curbe → ∃ p ∈ (loop args off).1, p.size = arg.sz := by
  induction args generalizing off with
  | nil => exact fun arg harg => absurd harg List.not_mem_nil
  | cons a args ih =>
    intro arg harg hlocal hcurbe
    rw [loop]
    rcases List.mem_cons.mp harg with rfl | harg
    · rw [if_neg (not_not.mpr hlocal)]
      simp only [if_neg (not_lt.mpr hcurbe)]
      exact ⟨_, List.mem_cons_self, rfl⟩
    · have ih := fun off => ih off arg harg hlocal hcurbe
      split
      · exact ih _
      · simp only
        split
        · exact ih _
        · obtain ⟨p, hp, hsize⟩ := ih (ALIGN off a.align + a.local_sz.setWidth 32)
          exact ⟨p, List.mem_cons_of_mem _ hp, hsize⟩

/-- Ranges that end below 2 ^ 30 have sizes that fit in the bit-field. -/
theorem small_of_below {args : List Arg} (off : BitVec 32)
    (h : ∀ p ∈ (loop args off).1, p.segment.finish < 2 ^ 30) : Small args := by
  intro arg harg hlocal hcurbe
  obtain ⟨p, hp, hsize⟩ := exists_placed off arg harg hlocal hcurbe
  rw [← hsize]
  exact (Nat.le_add_left _ _).trans_lt (h p hp)

theorem cl_curbe_fill_eq_some {args : List Arg} {slm_size slm_sz : BitVec 32}
    {local_mem_size : BitVec 64} {placed : List Placed}
    (h : cl_curbe_fill args slm_size local_mem_size = some (placed, slm_sz)) :
    loop args slm_size = (placed, slm_sz) ∧ slm_sz.toNat ≤ local_mem_size.toNat := by
  simp only [cl_curbe_fill] at h
  split at h
  · cases h
  · next hle =>
    have hloop : loop args slm_size = (placed, slm_sz) := Option.some.inj h
    rw [hloop] at hle
    refine ⟨hloop, (not_lt.mp hle).trans' ?_⟩
    have hlt : slm_sz.toNat < 2 ^ 64 := slm_sz.isLt.trans (by decide)
    rw [BitVec.toNat_setWidth, Nat.mod_eq_of_lt hlt]

/-! ### The result -/

/-- A launch that goes on: the layout is right where the sizes fit in the bit-field and its end in
unbounded integers is below 2 ^ 32; with less than 2 ^ 30 bytes of local memory, alignments that are
powers of two and a range at least, only there. -/
theorem layout_exact {args : List Arg} (hprep : Prepared args) {slm_size slm_sz : BitVec 32}
    {local_mem_size : BitVec 64} {placed : List Placed}
    (h : cl_curbe_fill args slm_size local_mem_size = some (placed, slm_sz)) :
    (Small args ∧ exactEnd args slm_size.toNat < 2 ^ 32 → Exact slm_size slm_sz placed) ∧
      (local_mem_size.toNat < 2 ^ 30 → PowerOfTwo args → placed ≠ [] →
        (Exact slm_size slm_sz placed ↔
          Small args ∧ exactEnd args slm_size.toNat < 2 ^ 32)) := by
  obtain ⟨hloop, haccepted⟩ := cl_curbe_fill_eq_some h
  have hexact : Small args ∧ exactEnd args slm_size.toNat < 2 ^ 32 →
      Exact slm_size slm_sz placed := by
    rintro ⟨hsmall, hend⟩
    have := exact_of_end hprep hsmall hend
    rwa [hloop] at this
  refine ⟨hexact, fun hmem hpow hsome => ⟨fun hright => ?_, hexact⟩⟩
  have hsmall : Small args := by
    refine small_of_below slm_size fun p hp => ?_
    rw [hloop] at hp
    exact ((hright.below p hp).trans haccepted).trans_lt hmem
  refine ⟨hsmall, ?_⟩
  have hsize := size_pos hprep slm_size
  rw [hloop] at hsize
  rcases Nat.eq_zero_or_pos slm_size.toNat with hzero | hpos
  · obtain rfl : slm_size = 0 := BitVec.eq_of_toNat_eq hzero
    refine end_lt_of_zero hprep hsmall hpow ?_ ?_ ?_
    · rw [hloop]
      exact hright.below
    · rw [hloop]
      exact hright.disjoint
    · rw [hloop]
      exact hsome
  · refine end_lt_of_pos hprep hsmall hpow hpos ?_ ?_ ?_
    · rw [hloop]
      exact hright.below
    · rw [hloop]
      intro p hp hoff
      refine not_disjoint_of_zero ?_ rfl (hsize p hp) hpos (hright.static p hp)
      show p.offset.toNat = 0
      rw [hoff]
      rfl
    · rw [hloop]
      obtain ⟨p, rest, rfl⟩ := List.exists_cons_of_ne_nil hsome
      have hbelow := hright.below p List.mem_cons_self
      have hp := hsize p List.mem_cons_self
      simp only [Segment.finish, Placed.segment] at hbelow
      show 0 < slm_sz.toNat
      omega

/-- Two pointers behind 100 bytes of static memory. -/
theorem layout_exact_two :
    cl_curbe_fill [⟨true, 4, 0, 64⟩, ⟨true, 16, 4, 32⟩] 100 65536 =
        some ([⟨4, 100, 64⟩, ⟨16, 176, 32⟩], 208) ∧
      Exact 100 208 [⟨4, 100, 64⟩, ⟨16, 176, 32⟩] := by
  have h : cl_curbe_fill [⟨true, 4, 0, 64⟩, ⟨true, 16, 4, 32⟩] 100 65536 =
      some ([⟨4, 100, 64⟩, ⟨16, 176, 32⟩], 208) := by decide
  have hprep : Prepared [⟨true, 4, 0, 64⟩, ⟨true, 16, 4, 32⟩] := by
    intro arg harg _
    rcases List.mem_pair.mp harg with rfl | rfl
    · exact ⟨by decide, by decide⟩
    · exact ⟨by decide, by decide⟩
  have hsmall : Small [⟨true, 4, 0, 64⟩, ⟨true, 16, 4, 32⟩] := by
    intro arg harg _ _
    rcases List.mem_pair.mp harg with rfl | rfl
    · decide
    · decide
  exact ⟨h, (layout_exact hprep h).1 ⟨hsmall, by decide⟩⟩

/-- A size of 2 ^ 32 bytes is accepted, and the next pointer gets the same offset. -/
theorem not_exact_wrapped :
    cl_curbe_fill [⟨true, 4, 0, 4294967296⟩, ⟨true, 4, 4, 64⟩] 0 65536 =
        some ([⟨4, 0, 4294967296⟩, ⟨4, 0, 64⟩], 64) ∧
      ¬ Exact 0 64 [⟨4, 0, 4294967296⟩, ⟨4, 0, 64⟩] := by
  refine ⟨by decide, fun h => ?_⟩
  have hbelow := h.below _ List.mem_cons_self
  revert hbelow
  decide

end LocalMemory

end Runtime
