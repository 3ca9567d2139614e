/-
A message whose surface index is in a register: the loop that `beforeMessage` and `afterMessage` of
`gen_context.cpp` put around it.

Each iteration takes the highest lane that is left, fetches its index through the address register
and sends the message for the lanes that have the same index.  The register file is an array of
words of 16 bits.  `noMask` makes all lanes active.

* `iterated` — what one iteration does, by lanes;
* `loop_lanes` — with an index for each lane, every lane is served once;
* `loop_uniform` — with one index, what is fetched must be that index;
* **`dynamicBti_iff`** — when the loop serves every lane once, with its own surface.
-/
import Mathlib

namespace Backend

namespace DynamicBti

/-! ### Flags and words -/

/-- The flag with these bits. -/
def ofBits (f : ℕ → Bool) : (n : ℕ) → BitVec n
  | 0 => 0#0
  | n + 1 => BitVec.cons (f n) (ofBits f n)

theorem getLsbD_ofBits (f : ℕ → Bool) (n i : ℕ) :
    (ofBits f n).getLsbD i = (decide (i < n) && f i) := by
  induction n with
  | zero => simp [ofBits]
  | succ n ih =>
    rw [ofBits, BitVec.getLsbD_cons, ih]
    by_cases hi : i = n
    · simp [hi]
    · have hlt : i < n + 1 ↔ i < n := by omega
      simp [hi, hlt]

/-- The register file, by words. -/
abbrev File := ℕ → BitVec 16

/-- The dword that starts at a word. -/
def ud (file : File) (r : ℕ) : BitVec 32 := file (r + 1) ++ file r

def setUD (file : File) (r : ℕ) (v : BitVec 32) : File :=
  Function.update (Function.update file r (v.extractLsb' 0 16)) (r + 1) (v.extractLsb' 16 16)

/-! ### The instructions -/

/-- The register of the surface index. -/
inductive Bti where
  | lanes (nr : ℕ)
  | uniform (nr subnr : ℕ)

def Bti.nr : Bti → ℕ
  | lanes nr | uniform nr _ => nr

/-- The word at which a lane finds its index. -/
def Bti.word : Bti → ℕ → ℕ
  | lanes nr, i => 16 * nr + 2 * i
  | uniform nr subnr, _ => 16 * nr + subnr / 2

/-- `tmp` and `btiTmp` by their words; `desc` is a descriptor but for its lowest byte, which is
left 0 for the surface index. -/
structure SelectionInstruction where
  simd16 : Bool
  noMask : Bool
  bti : Bti
  tmp : ℕ
  btiTmp : ℕ
  desc : BitVec 24

/-- `a0` is the first dword of the address register, `exec` the execution mask. -/
structure State where
  file : File
  flag : BitVec 16
  a0 : BitVec 32
  exec : BitVec 16

/-- The message of an iteration: its lanes and its descriptor. -/
structure Message where
  lanes : ℕ → Bool
  desc : BitVec 32

def Message.surface (msg : Message) : BitVec 8 := msg.desc.extractLsb' 0 8

section

variable (insn : SelectionInstruction)

def SelectionInstruction.execWidth : ℕ := if insn.simd16 then 16 else 8

/-- The lanes in which an instruction without predicate takes effect. -/
def SelectionInstruction.enabled (exec : BitVec 16) (i : ℕ) : Bool :=
  i < insn.execWidth && (insn.noMask || exec.getLsbD i)

/-- A comparison writes the flag bits of its lanes. -/
def cmp (lanes : ℕ → Bool) (test : ℕ → Bool) (flag : BitVec 16) : BitVec 16 :=
  ofBits (fun i => if lanes i then test i else flag.getLsbD i) 16

/-- What `beforeMessage` emits before the loop. -/
def initFlag (s : State) : State :=
  let flag := 0#16
  { s with flag := cmp (insn.enabled s.exec) (fun _ => decide (flag ≠ 1)) flag }

/-- The instructions of width 1: the index of the highest lane of the flag. -/
def fetchIndex (s : State) : State :=
  let file := setUD s.file insn.btiTmp (s.flag.setWidth 32 &&& 0xffffffff)
  let file := setUD file insn.btiTmp (ud file insn.btiTmp).clz
  let file := Function.update file insn.btiTmp (-file insn.btiTmp + 0x1f)
  let file := Function.update file insn.btiTmp (file insn.btiTmp * 4)
  let a0 := s.a0.extractLsb' 16 16 ++ (file insn.btiTmp + BitVec.ofNat 16 (insn.bti.nr * 32))
  let file := setUD file insn.btiTmp (ud file ((a0.extractLsb' 0 16).toNat / 2))
  { s with a0, file := Function.update file insn.tmp s.flag }

def beforeMessage (s : State) : State :=
  let s := fetchIndex insn s
  let equal i := decide (ud s.file (insn.bti.word i) = ud s.file insn.btiTmp)
  { s with
    flag := cmp (insn.enabled s.exec) equal s.flag
    a0 := ((s.file insn.btiTmp).setWidth 8).setWidth 32 ||| (insn.desc ++ 0#8) }

/-- The lanes of an instruction with predicate. -/
def predicated (s : State) (i : ℕ) : Bool := insn.enabled s.exec i && s.flag.getLsbD i

/-- Up to `WHILE`, and whether it goes back. -/
def afterMessage (s : State) : State × Bool :=
  let s := { s with flag := s.file insn.tmp }
  let different i := decide (ud s.file (insn.bti.word i) ≠ ud s.file insn.btiTmp)
  let s := { s with flag := cmp (predicated insn s) different s.flag }
  ({ s with exec := s.exec &&& s.flag }, (List.range 16).any (predicated insn s))

def iteration (s : State) : (State × Bool) × Message :=
  let s := beforeMessage insn s
  (afterMessage insn s, ⟨predicated insn s, s.a0⟩)

/-- The messages of the loop. -/
def loop : ℕ → State → Option (List Message)
  | 0, _ => none
  | fuel + 1, s =>
    let ((s, again), msg) := iteration insn s
    if again then (loop fuel s).map (msg :: ·) else some [msg]

end

/-! ### What the loop is for -/

/-- Each of the lanes is served once, with its own surface, and no other is. -/
def Served (lanes : ℕ → Bool) (index : ℕ → BitVec 8) (msgs : List Message) : Prop :=
  ∀ i, if lanes i then ∃ msg, msgs.filter (·.lanes i) = [msg] ∧ msg.surface = index i
    else msgs.filter (·.lanes i) = []

/-- The temporaries are not where an index is, nor in each other. -/
structure SelectionInstruction.Apart (insn : SelectionInstruction) : Prop where
  word : ∀ i < insn.execWidth, ∀ j < 2, ∀ k < 2, insn.bti.word i + j ≠ insn.btiTmp + k
  tmp : ∀ i < insn.execWidth, ∀ j < 2, insn.bti.word i + j ≠ insn.tmp
  temps : ∀ k < 2, insn.tmp ≠ insn.btiTmp + k

/-- The highest lane. -/
def leader (flag : BitVec 16) : ℕ := 31 - (flag.setWidth 32).clz.toNat

theorem setWidth_ne_zero {flag : BitVec 16} (h : flag ≠ 0) : flag.setWidth 32 ≠ 0#32 := by
  intro hzero
  have hback := congrArg (BitVec.setWidth 16) hzero
  rw [BitVec.setWidth_setWidth_of_le _ (by decide), BitVec.setWidth_eq] at hback
  exact h hback

/-- The highest lane is one of the flag. -/
theorem getLsbD_leader {flag : BitVec 16} (h : flag ≠ 0) : flag.getLsbD (leader flag) = true := by
  have hbit := BitVec.getLsbD_true_clz_of_ne_zero (by decide) (setWidth_ne_zero h)
  rw [BitVec.getLsbD_setWidth, Bool.and_eq_true] at hbit
  exact hbit.2

theorem leader_lt {flag : BitVec 16} (h : flag ≠ 0) : leader flag < 16 :=
  BitVec.lt_of_getLsbD (getLsbD_leader h)

theorem clz_eq {flag : BitVec 16} (h : flag ≠ 0) :
    (flag.setWidth 32).clz = BitVec.ofNat 32 (31 - leader flag) := by
  have hlt : (flag.setWidth 32).clz < 32 := BitVec.clz_lt_iff_ne_zero.mpr (setWidth_ne_zero h)
  have hlt' : (flag.setWidth 32).clz.toNat < 32 := hlt
  refine BitVec.eq_of_toNat_eq ?_
  rw [BitVec.toNat_ofNat, leader]
  omega

theorem ud_setUD (file : File) (r : ℕ) (v : BitVec 32) : ud (setUD file r v) r = v := by
  rw [ud, setUD, Function.update_self, Function.update_of_ne (by omega), Function.update_self]
  exact BitVec.extractLsb'_append_extractLsb'

theorem setUD_low (file : File) (r n : ℕ) :
    setUD file r (BitVec.ofNat 32 n) r = BitVec.ofNat 16 n := by
  rw [setUD, Function.update_of_ne r.succ_ne_self.symm, Function.update_self]
  exact BitVec.eq_of_toNat_eq (by simp)

theorem ud_setUD_of_ne {file : File} {r q : ℕ} (v : BitVec 32)
    (h : ∀ j < 2, ∀ k < 2, q + j ≠ r + k) : ud (setUD file r v) q = ud file q := by
  have hword (j : ℕ) (hj : j < 2) : setUD file r v (q + j) = file (q + j) := by
    have hlow : q + j ≠ r := h j hj 0 (by decide)
    rw [setUD, Function.update_of_ne (h j hj 1 (by decide)), Function.update_of_ne hlow]
  exact congrArg₂ (· ++ ·) (hword 1 (by decide)) (hword 0 (by decide))

theorem ud_update_of_ne {file : File} {r q : ℕ} (v : BitVec 16) (h : ∀ j < 2, q + j ≠ r) :
    ud (Function.update file r v) q = ud file q := by
  have hword (j : ℕ) (hj : j < 2) : Function.update file r v (q + j) = file (q + j) :=
    Function.update_of_ne (h j hj) _ _
  exact congrArg₂ (· ++ ·) (hword 1 (by decide)) (hword 0 (by decide))

/-- Only the last dword stays. -/
theorem setUD_setUD (file : File) (r : ℕ) (v v' : BitVec 32) :
    setUD (setUD file r v) r v' = setUD file r v' := by
  have hne : r + 1 ≠ r := r.succ_ne_self
  simp only [setUD]
  rw [Function.update_comm hne, Function.update_idem, Function.update_idem]

/-- A word below a high word that is 0. -/
theorem update_setUD (file : File) (r : ℕ) {v : BitVec 32} {n : ℕ} (hv : v.toNat < 2 ^ 16)
    (hn : n < 2 ^ 16) : Function.update (setUD file r v) r (BitVec.ofNat 16 n) =
      setUD file r (BitVec.ofNat 32 n) := by
  have hlow : (BitVec.ofNat 32 n).extractLsb' 0 16 = BitVec.ofNat 16 n :=
    BitVec.eq_of_toNat_eq (by simp)
  have hhigh : (BitVec.ofNat 32 n).extractLsb' 16 16 = v.extractLsb' 16 16 := by
    refine BitVec.eq_of_toNat_eq ?_
    simp only [BitVec.extractLsb'_toNat, BitVec.toNat_ofNat, Nat.shiftRight_eq_div_pow]
    omega
  have hne : r + 1 ≠ r := r.succ_ne_self
  simp only [setUD]
  rw [Function.update_comm hne, Function.update_idem, hlow, hhigh]

/-! ### One iteration -/

variable {insn : SelectionInstruction}

/-- What is fetched for the lanes of a flag. -/
def fetched (insn : SelectionInstruction) (file : File) (flag : BitVec 16) : BitVec 32 :=
  ud (setUD file insn.btiTmp (BitVec.ofNat 32 (4 * leader flag)))
    (16 * insn.bti.nr + 2 * leader flag)

/-- The registers after the instructions of width 1. -/
theorem fetchIndex_file (hnr : insn.bti.nr < 128) {s : State} (hflag : s.flag ≠ 0) :
    (fetchIndex insn s).file = Function.update
      (setUD s.file insn.btiTmp (fetched insn s.file s.flag)) insn.tmp s.flag := by
  have hlt := leader_lt hflag
  have hclz := clz_eq hflag
  have hones : s.flag.setWidth 32 &&& 0xffffffff = s.flag.setWidth 32 :=
    BitVec.and_allOnes
  -- the register is the number of leading zeros, then the lane, then its distance in bytes
  have hlane : -BitVec.ofNat 16 (31 - leader s.flag) + 0x1f = BitVec.ofNat 16 (leader s.flag) := by
    have hlit : (0x1f : BitVec 16).toNat = 31 := rfl
    refine BitVec.eq_of_toNat_eq ?_
    simp only [BitVec.toNat_add, BitVec.toNat_neg, BitVec.toNat_ofNat, hlit]
    omega
  have hbytes : BitVec.ofNat 16 (leader s.flag) * 4 = BitVec.ofNat 16 (4 * leader s.flag) := by
    have hlit : (4 : BitVec 16).toNat = 4 := rfl
    refine BitVec.eq_of_toNat_eq ?_
    simp only [BitVec.toNat_mul, BitVec.toNat_ofNat, hlit]
    omega
  have haddr :
      (BitVec.ofNat 16 (4 * leader s.flag) + BitVec.ofNat 16 (insn.bti.nr * 32)).toNat / 2 =
        16 * insn.bti.nr + 2 * leader s.flag := by
    rw [← BitVec.ofNat_add, BitVec.toNat_ofNat, Nat.mod_eq_of_lt (by omega)]
    omega
  simp only [fetchIndex, hones, ud_setUD, setUD_setUD, hclz]
  rw [setUD_low, hlane, update_setUD _ _ (by simp; omega) (by omega), setUD_low, hbytes,
    update_setUD _ _ (by simp; omega) (by omega), setUD_low, BitVec.extractLsb'_append_eq_right,
    haddr, setUD_setUD]
  rfl

/-- An iteration that fetches `x`, by lanes. -/
structure Iterated (insn : SelectionInstruction) (s : State) (x : BitVec 32)
    (r : (State × Bool) × Message) : Prop where
  file : r.1.1.file = Function.update (setUD s.file insn.btiTmp x) insn.tmp s.flag
  flag : ∀ i, r.1.1.flag.getLsbD i =
    (s.flag.getLsbD i && !(insn.enabled s.exec i && decide (ud s.file (insn.bti.word i) = x)))
  exec : r.1.1.exec = s.exec &&& r.1.1.flag
  again : r.1.2 = (List.range 16).any fun i => insn.enabled s.exec i && r.1.1.flag.getLsbD i
  lanes : ∀ i, r.2.lanes i =
    (insn.enabled s.exec i && decide (ud s.file (insn.bti.word i) = x))
  surface : r.2.surface = x.extractLsb' 0 8

theorem enabled_lt {exec : BitVec 16} {i : ℕ} (h : insn.enabled exec i = true) :
    i < insn.execWidth := by
  rw [SelectionInstruction.enabled, Bool.and_eq_true, decide_eq_true_iff] at h
  exact h.1

theorem execWidth_le : insn.execWidth ≤ 16 := by
  rw [SelectionInstruction.execWidth]
  split <;> decide

theorem getLsbD_cmp (lanes test : ℕ → Bool) (flag : BitVec 16) {i : ℕ} (hi : i < 16) :
    (cmp lanes test flag).getLsbD i = if lanes i then test i else flag.getLsbD i := by
  rw [cmp, getLsbD_ofBits, decide_eq_true hi, Bool.true_and]

/-- The temporaries do not change an index. -/
theorem ud_word (h : insn.Apart) (file : File) (x : BitVec 32) (flag : BitVec 16) {i : ℕ}
    (hi : i < insn.execWidth) :
    ud (Function.update (setUD file insn.btiTmp x) insn.tmp flag) (insn.bti.word i) =
      ud file (insn.bti.word i) := by
  rw [ud_update_of_ne _ (h.tmp i hi), ud_setUD_of_ne _ (h.word i hi)]

theorem iterated (h : insn.Apart) (hnr : insn.bti.nr < 128) {s : State} (hflag : s.flag ≠ 0) :
    Iterated insn s (fetched insn s.file s.flag) (iteration insn s) := by
  have hfile := fetchIndex_file hnr hflag
  have hflag' : (fetchIndex insn s).flag = s.flag := rfl
  have hexec : (fetchIndex insn s).exec = s.exec := rfl
  rw [iteration, beforeMessage]
  generalize fetched insn s.file s.flag = x at hfile ⊢
  generalize fetchIndex insn s = t at hfile hflag' hexec ⊢
  have htmp : ud t.file insn.btiTmp = x := by
    rw [hfile, ud_update_of_ne _ fun j hj => (h.temps j hj).symm, ud_setUD]
  have hlow : t.file insn.btiTmp = x.extractLsb' 0 16 := by
    rw [← htmp, ud, BitVec.extractLsb'_append_eq_right]
  have hsave : t.file insn.tmp = s.flag := by rw [hfile, Function.update_self]
  have hmask (i : ℕ) : (insn.enabled s.exec i && decide (ud s.file (insn.bti.word i) = x)) =
      (insn.enabled s.exec i && decide (ud t.file (insn.bti.word i) = x)) := by
    cases hi : insn.enabled s.exec i with
    | false => rw [Bool.false_and, Bool.false_and]
    | true => rw [hfile, ud_word h _ _ _ (enabled_lt hi)]
  simp only [afterMessage, htmp, hsave, hexec, hflag', hlow]
  refine ⟨hfile, fun i => ?_, rfl, rfl, fun i => ?_, ?_⟩
  · rw [hmask]
    by_cases hi : i < 16
    · simp only [getLsbD_cmp _ _ _ hi, predicated]
      by_cases hx : ud t.file (insn.bti.word i) = x <;>
        by_cases he : insn.enabled s.exec i = true <;> simp [hx, he]
    · simp only [BitVec.getLsbD_of_ge _ _ (not_lt.mp hi), Bool.false_and]
  · rw [hmask]
    cases hi : insn.enabled s.exec i with
    | false => simp only [predicated, hi, Bool.false_and]
    | true =>
      simp only [predicated, hi, getLsbD_cmp _ _ _ ((enabled_lt hi).trans_le execWidth_le),
        if_true]
  · simp only [Message.surface]
    ext k hk
    have hdesc : (insn.desc ++ 0#8).getLsbD k = false := by
      rw [BitVec.getLsbD_append, if_pos hk, BitVec.getLsbD_zero]
    have hword : k < 16 := by omega
    have hdword : k < 32 := by omega
    have hbit : (decide (k < 32) && (decide (k < 16) && x.getLsbD k) ||
        (insn.desc ++ 0#8).getLsbD k) = x.getLsbD k := by
      rw [hdesc, decide_eq_true hword, decide_eq_true hdword, Bool.or_false]
      rfl
    simpa [hk] using hbit

/-! ### What stays true in the loop -/

/-- The lanes that have been served and are still enabled have other indices than those left. -/
structure Inv (insn : SelectionInstruction) (idx : ℕ → BitVec 32) (s : State) : Prop where
  index : ∀ i < insn.execWidth, ud s.file (insn.bti.word i) = idx i
  enabled : ∀ i, s.flag.getLsbD i = true → insn.enabled s.exec i = true
  left : ∀ i, insn.enabled s.exec i = true → s.flag.getLsbD i = false →
    ∀ j, s.flag.getLsbD j = true → idx i ≠ idx j

variable {idx : ℕ → BitVec 32} {s : State} {x : BitVec 32} {r : (State × Bool) × Message}

/-- The lanes that are left after an iteration. -/
theorem Iterated.flag_iff (h : Iterated insn s x r) (hi : Inv insn idx s) (i : ℕ) :
    r.1.1.flag.getLsbD i = true ↔ s.flag.getLsbD i = true ∧ idx i ≠ x := by
  rw [h.flag, Bool.and_eq_true, Bool.not_eq_true', Bool.and_eq_false_iff, decide_eq_false_iff_not]
  refine and_congr_right fun hflag => ?_
  have henabled := hi.enabled i hflag
  rw [hi.index i (enabled_lt henabled), henabled]
  exact or_iff_right Bool.noConfusion

theorem Iterated.inv (h : Iterated insn s x r) (happart : insn.Apart) (hi : Inv insn idx s) :
    Inv insn idx r.1.1 := by
  refine ⟨fun i hlt => ?_, fun i hflag => ?_, fun i henabled hflag j hj => ?_⟩
  · rw [h.file, ud_word happart _ _ _ hlt, hi.index i hlt]
  · have hold := hi.enabled i ((h.flag_iff hi i).mp hflag).1
    rw [SelectionInstruction.enabled] at hold ⊢
    rw [h.exec, BitVec.getLsbD_and, hflag, Bool.and_true]
    exact hold
  · obtain ⟨hj, hjx⟩ := (h.flag_iff hi j).mp hj
    have hold : insn.enabled s.exec i = true := by
      rw [SelectionInstruction.enabled] at henabled ⊢
      rw [h.exec, BitVec.getLsbD_and, hflag, Bool.and_false, Bool.or_false] at henabled
      rw [Bool.and_eq_true] at henabled ⊢
      exact ⟨henabled.1, by rw [henabled.2, Bool.true_or]⟩
    cases hs : s.flag.getLsbD i with
    | false => exact hi.left i hold hs j hj
    | true =>
      -- it was served in this iteration
      have hix : idx i = x := by
        by_contra hne
        rw [(h.flag_iff hi i).mpr ⟨hs, hne⟩] at hflag
        exact Bool.noConfusion hflag
      exact fun heq => hjx (heq.symm.trans hix)

theorem Iterated.lanes_eq (h : Iterated insn s x r) (hi : Inv insn idx s)
    (hx : ∀ i, insn.enabled s.exec i = true → s.flag.getLsbD i = false → idx i ≠ x) (i : ℕ) :
    r.2.lanes i = (s.flag.getLsbD i && decide (idx i = x)) := by
  rw [h.lanes]
  cases he : insn.enabled s.exec i with
  | false =>
    have hflag : s.flag.getLsbD i = false :=
      Bool.eq_false_iff.mpr fun hflag => Bool.eq_false_iff.mp he (hi.enabled i hflag)
    rw [hflag]
    rfl
  | true =>
    rw [hi.index i (enabled_lt he)]
    cases hflag : s.flag.getLsbD i with
    | true => rfl
    | false => exact decide_eq_false (hx i he hflag)

theorem Iterated.again_iff (h : Iterated insn s x r) (hi : Inv insn idx s) :
    r.1.2 = true ↔ r.1.1.flag ≠ 0 := by
  rw [h.again, List.any_eq_true]
  constructor
  · rintro ⟨i, -, hi'⟩ hzero
    rw [hzero, Bool.and_eq_true] at hi'
    exact Bool.noConfusion ((BitVec.getLsbD_zero (i := i)).symm.trans hi'.2)
  · intro hne
    have hlead := getLsbD_leader hne
    have hold := hi.enabled _ ((h.flag_iff hi _).mp hlead).1
    exact ⟨_, List.mem_range.mpr (leader_lt hne), by rw [hold, hlead]; rfl⟩

/-- The message of an iteration before the messages for the lanes it leaves. -/
theorem Iterated.served (h : Iterated insn s x r) (hi : Inv insn idx s)
    (hx : ∀ i, insn.enabled s.exec i = true → s.flag.getLsbD i = false → idx i ≠ x)
    {index : ℕ → BitVec 8} (hindex : ∀ i, s.flag.getLsbD i = true → idx i = (index i).setWidth 32)
    {msgs : List Message} (hmsgs : Served r.1.1.flag.getLsbD index msgs) :
    Served s.flag.getLsbD index (r.2 :: msgs) := by
  intro i
  have hrest := hmsgs i
  rw [List.filter_cons, h.lanes_eq hi hx]
  cases hflag : s.flag.getLsbD i with
  | false =>
    have hleft : r.1.1.flag.getLsbD i = false :=
      Bool.eq_false_iff.mpr fun hleft => by simp [((h.flag_iff hi i).mp hleft).1] at hflag
    rw [hleft] at hrest
    simpa using hrest
  | true =>
    by_cases hix : idx i = x
    · have hleft : r.1.1.flag.getLsbD i = false :=
        Bool.eq_false_iff.mpr fun hleft => ((h.flag_iff hi i).mp hleft).2 hix
      rw [hleft] at hrest
      have hnone : msgs.filter (·.lanes i) = [] := by simpa using hrest
      refine ⟨r.2, by simp [hix, hnone], ?_⟩
      rw [h.surface, ← hix, hindex i hflag, ← BitVec.setWidth_eq_extractLsb' (by decide),
        BitVec.setWidth_setWidth_of_le _ (by decide), BitVec.setWidth_eq]
    · have hleft : r.1.1.flag.getLsbD i = true := (h.flag_iff hi i).mpr ⟨hflag, hix⟩
      rw [hleft] at hrest
      simpa [hix] using hrest

theorem served_nil (index : ℕ → BitVec 8) {flag : BitVec 16} (h : flag = 0) :
    Served flag.getLsbD index [] := by
  intro i
  have hbit : flag.getLsbD i = false := by
    rw [h]
    exact BitVec.getLsbD_zero
  simp [hbit]

/-! ### An index for each lane -/

/-- The lanes that are left. -/
def remaining (flag : BitVec 16) : Finset ℕ :=
  (Finset.range 16).filter fun i => flag.getLsbD i = true

theorem mem_remaining {flag : BitVec 16} {i : ℕ} : i ∈ remaining flag ↔ flag.getLsbD i = true := by
  rw [remaining, Finset.mem_filter, Finset.mem_range]
  exact and_iff_right_of_imp fun h => BitVec.lt_of_getLsbD h

theorem remaining_lt (h : Iterated insn s (idx (leader s.flag)) r) (hi : Inv insn idx s)
    (hflag : s.flag ≠ 0) : (remaining r.1.1.flag).card < (remaining s.flag).card := by
  refine Finset.card_lt_card (Finset.ssubset_iff_of_subset (fun i hmem => ?_) |>.mpr
    ⟨leader s.flag, mem_remaining.mpr (getLsbD_leader hflag), fun hmem => ?_⟩)
  · exact mem_remaining.mpr ((h.flag_iff hi i).mp (mem_remaining.mp hmem)).1
  · exact ((h.flag_iff hi _).mp (mem_remaining.mp hmem)).2 rfl

/-- With an index for each lane the leader's is fetched. -/
theorem fetched_lanes {nr : ℕ} (h : insn.Apart) (hbti : insn.bti = .lanes nr)
    (hi : Inv insn idx s) (hflag : s.flag ≠ 0) :
    fetched insn s.file s.flag = idx (leader s.flag) := by
  have hlt := enabled_lt (hi.enabled _ (getLsbD_leader hflag))
  have hword : insn.bti.word (leader s.flag) = 16 * insn.bti.nr + 2 * leader s.flag := by
    rw [hbti, Bti.word, Bti.nr]
  rw [fetched, ← hword, ud_setUD_of_ne _ (h.word _ hlt), hi.index _ hlt]

theorem loop_lanes {nr : ℕ} (h : insn.Apart) (hnr : insn.bti.nr < 128) (hbti : insn.bti = .lanes nr)
    {index : ℕ → BitVec 8} :
    ∀ (n : ℕ) (s : State), (remaining s.flag).card ≤ n → Inv insn idx s → s.flag ≠ 0 →
      (∀ i, s.flag.getLsbD i = true → idx i = (index i).setWidth 32) →
      ∃ msgs, (∀ fuel, n < fuel → loop insn fuel s = some msgs) ∧
        Served s.flag.getLsbD index msgs := by
  intro n
  induction n with
  | zero =>
    intro s hn hi hflag
    have hlead := mem_remaining.mpr (getLsbD_leader hflag)
    rw [Finset.card_eq_zero.mp (Nat.le_zero.mp hn)] at hlead
    exact absurd hlead (Finset.notMem_empty _)
  | succ n ih =>
    intro s hn hi hflag hindex
    have hiter := iterated h hnr hflag
    rw [fetched_lanes h hbti hi hflag] at hiter
    have hx : ∀ i, insn.enabled s.exec i = true → s.flag.getLsbD i = false →
        idx i ≠ idx (leader s.flag) :=
      fun i he hf => hi.left i he hf _ (getLsbD_leader hflag)
    have hcard := remaining_lt hiter hi hflag
    have hinv := hiter.inv h hi
    by_cases hleft : (iteration insn s).1.1.flag = 0
    · have hstop : (iteration insn s).1.2 = false :=
        Bool.eq_false_iff.mpr fun hgo => (hiter.again_iff hi).mp hgo hleft
      refine ⟨_, fun fuel hfuel => ?_, hiter.served hi hx hindex (served_nil index hleft)⟩
      obtain ⟨fuel, rfl⟩ := Nat.exists_eq_succ_of_ne_zero (by omega : fuel ≠ 0)
      simp [loop, hstop]
    · have hgo := (hiter.again_iff hi).mpr hleft
      obtain ⟨msgs, hloop, hserved⟩ := ih _ (by omega) hinv hleft fun i hf =>
        hindex i ((hiter.flag_iff hi i).mp hf).1
      refine ⟨_, fun fuel hfuel => ?_, hiter.served hi hx hindex hserved⟩
      obtain ⟨fuel, rfl⟩ := Nat.exists_eq_succ_of_ne_zero (by omega : fuel ≠ 0)
      simp [loop, hgo, hloop fuel (by omega)]

/-! ### One index for all lanes -/

theorem eq_zero_of_getLsbD {flag : BitVec 16} (h : ∀ i, flag.getLsbD i ≠ true) : flag = 0 := by
  by_contra hne
  exact h _ (getLsbD_leader hne)

/-- What `btiTmp` held before an iteration does not count in the next. -/
theorem fetched_next (h : insn.Apart) (file : File) (x : BitVec 32) (flag : BitVec 16) :
    fetched insn (Function.update (setUD file insn.btiTmp x) insn.tmp flag) flag =
      fetched insn (Function.update file insn.tmp flag) flag := by
  have hlow : insn.btiTmp ≠ insn.tmp := (h.temps 0 (by decide)).symm
  have hhigh : insn.btiTmp + 1 ≠ insn.tmp := (h.temps 1 (by decide)).symm
  have hcomm : Function.update (setUD file insn.btiTmp x) insn.tmp flag =
      setUD (Function.update file insn.tmp flag) insn.btiTmp x := by
    rw [setUD, setUD, Function.update_comm hhigh, Function.update_comm hlow]
  rw [fetched, fetched, hcomm, setUD_setUD]

section

variable {v : BitVec 32}

/-- Every enabled lane is left. -/
theorem Inv.flag_of_enabled (hi : Inv insn (fun _ => v) s) (hflag : s.flag ≠ 0) {i : ℕ}
    (h : insn.enabled s.exec i = true) : s.flag.getLsbD i = true := by
  by_contra hf
  exact hi.left i h (Bool.eq_false_iff.mpr hf) _ (getLsbD_leader hflag) rfl

/-- All lanes are served at once. -/
theorem loop_hit (h : insn.Apart) (hnr : insn.bti.nr < 128) (hi : Inv insn (fun _ => v) s)
    (hflag : s.flag ≠ 0) (hv : fetched insn s.file s.flag = v) (fuel : ℕ) :
    loop insn (fuel + 1) s = some [(iteration insn s).2] := by
  have hiter := iterated h hnr hflag
  have hzero : (iteration insn s).1.1.flag = 0 :=
    eq_zero_of_getLsbD fun i hf => ((hiter.flag_iff hi i).mp hf).2 hv.symm
  have hstop : (iteration insn s).1.2 = false :=
    Bool.eq_false_iff.mpr fun hgo => (hiter.again_iff hi).mp hgo hzero
  simp [loop, hstop]

theorem served_hit (h : insn.Apart) (hnr : insn.bti.nr < 128) (hi : Inv insn (fun _ => v) s)
    (hflag : s.flag ≠ 0) (hv : fetched insn s.file s.flag = v) {index : ℕ → BitVec 8}
    (hindex : ∀ i, s.flag.getLsbD i = true → v = (index i).setWidth 32) :
    Served s.flag.getLsbD index [(iteration insn s).2] := by
  have hiter := iterated h hnr hflag
  have hzero : (iteration insn s).1.1.flag = 0 :=
    eq_zero_of_getLsbD fun i hf => ((hiter.flag_iff hi i).mp hf).2 hv.symm
  refine hiter.served hi (fun i he hf => ?_) hindex (served_nil index hzero)
  rw [hi.flag_of_enabled hflag he] at hf
  exact Bool.noConfusion hf

/-- No lane is served and none is dropped. -/
theorem flag_miss (h : insn.Apart) (hnr : insn.bti.nr < 128) (hi : Inv insn (fun _ => v) s)
    (hflag : s.flag ≠ 0) (hv : fetched insn s.file s.flag ≠ v) :
    (iteration insn s).1.1.flag = s.flag := by
  refine BitVec.eq_of_getLsbD_eq fun i _ => Bool.eq_iff_iff.mpr ?_
  exact ((iterated h hnr hflag).flag_iff hi i).trans (and_iff_left hv.symm)

theorem loop_miss (h : insn.Apart) (hnr : insn.bti.nr < 128) (hi : Inv insn (fun _ => v) s)
    (hflag : s.flag ≠ 0) (hv : fetched insn s.file s.flag ≠ v) (fuel : ℕ) :
    loop insn (fuel + 1) s =
      (loop insn fuel (iteration insn s).1.1).map ((iteration insn s).2 :: ·) := by
  have hgo : (iteration insn s).1.2 = true :=
    ((iterated h hnr hflag).again_iff hi).mpr (by rwa [flag_miss h hnr hi hflag hv])
  simp [loop, hgo]

/-- With what is fetched in the second iteration wrong as well, the loop does not end. -/
theorem loop_eq_none (h : insn.Apart) (hnr : insn.bti.nr < 128) (fuel : ℕ) :
    ∀ s : State, Inv insn (fun _ => v) s → s.flag ≠ 0 → fetched insn s.file s.flag ≠ v →
      fetched insn (Function.update s.file insn.tmp s.flag) s.flag ≠ v →
      loop insn fuel s = none := by
  induction fuel with
  | zero => intros; rfl
  | succ fuel ih =>
    intro s hi hflag hv hnext
    have hiter := iterated h hnr hflag
    have hsame := flag_miss h hnr hi hflag hv
    have hfile : fetched insn (iteration insn s).1.1.file s.flag ≠ v := by
      rwa [hiter.file, fetched_next h]
    rw [loop_miss h hnr hi hflag hv, ih _ (hiter.inv h hi) (by rwa [hsame]) (by rwa [hsame])]
    · rfl
    · -- the save of the flag is already there
      rwa [hsame, hiter.file, Function.update_idem, ← hiter.file]

theorem loop_uniform (h : insn.Apart) (hnr : insn.bti.nr < 128) (hi : Inv insn (fun _ => v) s)
    (hflag : s.flag ≠ 0) {index : ℕ → BitVec 8}
    (hindex : ∀ i, s.flag.getLsbD i = true → v = (index i).setWidth 32) :
    (∃ msgs, (∃ n, ∀ fuel, n < fuel → loop insn fuel s = some msgs) ∧
      Served s.flag.getLsbD index msgs) ↔
      fetched insn s.file s.flag = v ∨
        fetched insn (Function.update s.file insn.tmp s.flag) s.flag = v := by
  constructor
  · rintro ⟨msgs, ⟨n, hn⟩, -⟩
    by_contra hcon
    rw [not_or] at hcon
    have hnone := loop_eq_none h hnr (n + 1) s hi hflag hcon.1 hcon.2
    exact Option.some_ne_none msgs ((hn (n + 1) n.lt_succ_self).symm.trans hnone)
  · intro hv
    by_cases hfirst : fetched insn s.file s.flag = v
    · refine ⟨_, ⟨0, fun fuel hfuel => ?_⟩, served_hit h hnr hi hflag hfirst hindex⟩
      obtain ⟨fuel, rfl⟩ := Nat.exists_eq_succ_of_ne_zero hfuel.ne'
      exact loop_hit h hnr hi hflag hfirst fuel
    · have hiter := iterated h hnr hflag
      have hsame := flag_miss h hnr hi hflag hfirst
      have hi' := hiter.inv h hi
      have hflag' : (iteration insn s).1.1.flag ≠ 0 := by rwa [hsame]
      have hsecond : fetched insn (iteration insn s).1.1.file (iteration insn s).1.1.flag = v := by
        rw [hsame, hiter.file, fetched_next h]
        exact hv.resolve_left hfirst
      have hserved := served_hit h hnr hi' hflag' hsecond fun i hf =>
        hindex i (by rwa [hsame] at hf)
      refine ⟨_, ⟨1, fun fuel hfuel => ?_⟩, hiter.served hi (fun i he hf => ?_) hindex hserved⟩
      · obtain ⟨fuel, rfl⟩ := Nat.exists_eq_add_of_le' hfuel
        rw [loop_miss h hnr hi hflag hfirst, loop_hit h hnr hi' hflag' hsecond]
        rfl
      · rw [hi.flag_of_enabled hflag he] at hf
        exact Bool.noConfusion hf

end

/-! ### The whole loop -/

/-- What is fetched first, or again with the flag in `tmp`, is the index of a uniform register. -/
def SelectionInstruction.Fetches (insn : SelectionInstruction) (s : State) : Prop :=
  match insn.bti with
  | .lanes _ => True
  | .uniform _ _ =>
    let lanes := ofBits (insn.enabled s.exec) 16
    fetched insn s.file lanes = ud s.file (insn.bti.word 0) ∨
      fetched insn (Function.update s.file insn.tmp lanes) lanes = ud s.file (insn.bti.word 0)

theorem initFlag_flag : (initFlag insn s).flag = ofBits (insn.enabled s.exec) 16 := by
  refine BitVec.eq_of_getLsbD_eq fun i hi => ?_
  rw [initFlag, getLsbD_cmp _ _ _ hi, getLsbD_ofBits, decide_eq_true hi, Bool.true_and]
  cases insn.enabled s.exec i <;> simp

theorem getLsbD_initFlag : (initFlag insn s).flag.getLsbD = insn.enabled s.exec := by
  funext i
  rw [initFlag_flag, getLsbD_ofBits]
  cases hi : insn.enabled s.exec i with
  | false => exact Bool.and_false _
  | true => rw [decide_eq_true ((enabled_lt hi).trans_le execWidth_le)]; rfl

theorem inv_initFlag (hidx : ∀ i < insn.execWidth, ud s.file (insn.bti.word i) = idx i) :
    Inv insn idx (initFlag insn s) := by
  refine ⟨hidx, fun i hf => ?_, fun i he hf => ?_⟩
  · rwa [getLsbD_initFlag] at hf
  · rw [getLsbD_initFlag] at hf
    exact Bool.noConfusion (hf.symm.trans (he : insn.enabled s.exec i = true))

/-- The loop ends with every active lane served once exactly when the register has an index for
each lane or the dword that is fetched in its place holds the same index. -/
theorem dynamicBti_iff (h : insn.Apart) (hnr : insn.bti.nr < 128) {index : ℕ → BitVec 8}
    (hindex : ∀ i, insn.enabled s.exec i = true →
      ud s.file (insn.bti.word i) = (index i).setWidth 32)
    (hactive : ∃ i, insn.enabled s.exec i = true) :
    (∃ msgs, (∃ n, ∀ fuel, n < fuel → loop insn fuel (initFlag insn s) = some msgs) ∧
      Served (insn.enabled s.exec) index msgs) ↔ insn.Fetches s := by
  have hflag : (initFlag insn s).flag ≠ 0 := by
    obtain ⟨i, hi⟩ := hactive
    rw [← getLsbD_initFlag] at hi
    exact fun hzero => by simp [hzero] at hi
  have hactive' : ∀ i, (initFlag insn s).flag.getLsbD i = true →
      ud s.file (insn.bti.word i) = (index i).setWidth 32 := by rwa [getLsbD_initFlag]
  rw [← getLsbD_initFlag]
  cases hbti : insn.bti with
  | lanes nr =>
    obtain ⟨msgs, hloop, hserved⟩ := loop_lanes h hnr hbti _ _ le_rfl
      (inv_initFlag fun i _ => rfl) hflag hactive'
    have hfetches : insn.Fetches s := by
      rw [SelectionInstruction.Fetches, hbti]
      trivial
    exact iff_of_true ⟨msgs, ⟨_, hloop⟩, hserved⟩ hfetches
  | uniform nr subnr =>
    have hword (i : ℕ) : insn.bti.word i = insn.bti.word 0 := by rw [hbti]; rfl
    have hiff := loop_uniform h hnr (inv_initFlag fun i _ => congrArg _ (hword i)) hflag
      fun i hf => (hword i ▸ hactive' i hf)
    have hfetches : insn.Fetches s ↔ fetched insn s.file (initFlag insn s).flag =
        ud s.file (insn.bti.word 0) ∨ fetched insn (Function.update s.file insn.tmp
          (initFlag insn s).flag) (initFlag insn s).flag = ud s.file (insn.bti.word 0) := by
      rw [initFlag_flag, SelectionInstruction.Fetches, hbti]
    exact hiff.trans hfetches.symm

/-- Eight lanes whose index is a quarter of the number of its word. -/
def perLane : SelectionInstruction := ⟨false, false, .lanes 2, 100, 102, 0x20600⟩

def perLaneState : State := ⟨fun q => if q % 2 = 0 then BitVec.ofNat 16 (q / 4) else 0, 0, 0, 0xff⟩

theorem dynamicBti_perLane : (∃ msgs,
    (∃ n, ∀ fuel, n < fuel → loop perLane fuel (initFlag perLane perLaneState) = some msgs) ∧
      Served (perLane.enabled perLaneState.exec) (fun i => BitVec.ofNat 8 (8 + i / 2)) msgs) ↔
    perLane.Fetches perLaneState := by
  refine dynamicBti_iff ⟨by decide, by decide, by decide⟩ (by decide) (fun i hi => ?_) ⟨0, rfl⟩
  have hlt : i < 8 := enabled_lt hi
  interval_cases i <;> rfl

/-- A uniform register that is not at the start of a line; the dword of the highest lane is
something else. -/
def uniformInsn : SelectionInstruction := ⟨false, false, .uniform 2 4, 100, 102, 0x20600⟩

def uniformState : State := ⟨fun q => if q = 34 then 5 else 0, 0, 0, 0xff⟩

theorem dynamicBti_uniform : ¬ ∃ msgs,
    (∃ n, ∀ fuel, n < fuel →
      loop uniformInsn fuel (initFlag uniformInsn uniformState) = some msgs) ∧
      Served (uniformInsn.enabled uniformState.exec) (fun _ => 5) msgs := by
  rintro ⟨msgs, ⟨n, hn⟩, -⟩
  have hapart : uniformInsn.Apart := ⟨by decide, by decide, by decide⟩
  have hinv : Inv uniformInsn (fun _ => 5) (initFlag uniformInsn uniformState) :=
    inv_initFlag fun _ _ => (by decide : ud uniformState.file 34 = 5)
  have hnone := loop_eq_none hapart (by decide) (n + 1) _ hinv (by decide) (by decide) (by decide)
  exact Option.some_ne_none msgs ((hn (n + 1) n.lt_succ_self).symm.trans hnone)

end DynamicBti

end Backend
