/-
The flags of booleans inside a block (`allocateFlags`, `gen_reg_allocation.cpp`).

A linear scan over the booleans of a block gives out three flag registers.  Where none is
free and none can be freed, the boolean that ends last loses its flag, unless the flag is
`f0.0`: that one is kept for the jump at the end of the block, whose boolean is made to
start before all others.

* `Block.bools_family` — what the intervals of a block have in common;
* `expire_spec`, `place_spec` — one turn of the scan;
* **`allocateFlags_sound`** — a flag is shared only by booleans that do not live together,
  the jump has `f0.0`, the scan never runs out of flags, and a boolean without a flag is
  kept in a general register.

The orders are any that `std::sort` may leave, and the intervals may lie anywhere in memory
(the loop that looks for a flag to take follows their addresses).
-/
import Beignet.Backend.IntervalStore

namespace Backend

namespace FlagAllocation

open IntervalStore

/-! ### The scan -/

/-- The state of the loop over the intervals. -/
structure State where
  /-- `freeFlags` below `freeNum`, the next one first -/
  freeFlags : List ℕ
  allocatedFlags : ℕ → Option ℕ
  allocatedFlagIntervals : GenRegInterval → Option ℕ
  /-- the booleans that need no general register -/
  flagBooleans : ℕ → Bool
  endID : ℕ

/-- `std::map::insert` -/
def mapInsert {κ : Type} [DecidableEq κ] (m : κ → Option ℕ) (key : κ) (value : ℕ) :
    κ → Option ℕ :=
  if (m key).isSome then m else Function.update m key (some value)

/-- The interval gets a flag. -/
def State.insert (s : State) (interval : GenRegInterval) (flag : ℕ) : State :=
  { s with
    allocatedFlags := mapInsert s.allocatedFlags interval.reg flag
    allocatedFlagIntervals := mapInsert s.allocatedFlagIntervals interval flag }

/-- The loop that expires one boolean, over what is left of `flagEnding`. -/
def expire (interval : GenRegInterval) : List GenRegInterval → State → State
  | [], s => s
  | toExpire :: rest, s =>
    if toExpire.minID > toExpire.maxID then expire interval rest { s with endID := s.endID + 1 }
    else if toExpire.maxID ≥ interval.minID then s
    else
      match s.allocatedFlags toExpire.reg with
      | none => expire interval rest { s with endID := s.endID + 1 }
      | some flag => { s with freeFlags := flag :: s.freeFlags, endID := s.endID + 1 }

/-- The best so far: the end and, if there is one, the flag and its boolean. -/
abbrev Candidate := ℤ × Option (ℕ × GenRegInterval)

def better (interval : GenRegInterval) (flags : GenRegInterval → Option ℕ) (best : Candidate)
    (i : GenRegInterval) : Candidate :=
  match flags i with
  | none => best
  | some flag =>
    if i.maxID ≤ interval.minID then best
    else if i.maxID > best.1 ∧ flag ≠ 0 then (i.maxID, some (flag, i))
    else best

/-- The loop that looks for the flag to take. -/
def spillCandidate (interval : GenRegInterval) (flags : GenRegInterval → Option ℕ)
    (addresses : List GenRegInterval) : Option (ℕ × GenRegInterval) :=
  (addresses.foldl (better interval flags) (0, none)).2

/-- The interval takes the flag of another. -/
def State.spill (s : State) (interval spillInterval : GenRegInterval) (flag : ℕ) : State :=
  let s := s.insert interval flag
  { s with
    allocatedFlags := Function.update s.allocatedFlags spillInterval.reg none
    allocatedFlagIntervals := Function.update s.allocatedFlagIntervals spillInterval none
    flagBooleans := Function.update s.flagBooleans spillInterval.reg false }

/-- One turn of the scan; `none` is the failed assertion. -/
def place (ending addresses : List GenRegInterval) (s : State) (interval : GenRegInterval) :
    Option State :=
  match s.freeFlags with
  | flag :: free => some ({ s with freeFlags := free }.insert interval flag)
  | [] =>
    let s := expire interval (ending.drop s.endID) s
    match s.freeFlags with
    | flag :: free => some ({ s with freeFlags := free }.insert interval flag)
    | [] =>
      match spillCandidate interval s.allocatedFlagIntervals addresses with
      | some (flag, spillInterval) => some (s.spill interval spillInterval flag)
      | none => none

def scan (ending addresses : List GenRegInterval) : List GenRegInterval → State → Option State
  | [], s => some s
  | interval :: rest, s => (place ending addresses s interval).bind (scan ending addresses rest)

/-- `freeFlags[] = {2, 3, 0}` -/
def start (flagBooleans : ℕ → Bool) : State :=
  ⟨[0, 3, 2], fun _ => none, fun _ => none, flagBooleans, 0⟩

/-! ### The invariant -/

/-- The second cursor has not reached the boolean, so its flag is not free. -/
def State.Active (s : State) (ending : List GenRegInterval) (i : GenRegInterval) : Prop :=
  i ∉ ending.take s.endID

/-- What holds with the booleans `done` behind the first cursor and `rest` before it. -/
structure Inv (ending done rest : List GenRegInterval) (s : State) : Prop where
  free : s.freeFlags.Nodup
  /-- a flag is free or somebody has it -/
  cover : ∀ flag ∈ [0, 3, 2], flag ∈ s.freeFlags ∨
    ∃ i ∈ done, s.Active ending i ∧ s.allocatedFlags i.reg = some flag
  idle : ∀ i ∈ done, s.Active ending i → ∀ flag, s.allocatedFlags i.reg = some flag →
    flag ∉ s.freeFlags
  unique : ∀ i ∈ done, ∀ j ∈ done, s.Active ending i → s.Active ending j → i ≠ j →
    ∀ flag, s.allocatedFlags i.reg = some flag → s.allocatedFlags j.reg ≠ some flag
  /-- the second cursor is where all that is to come starts later -/
  passed : ∀ i ∈ ending.take s.endID, ∀ r ∈ rest, i.maxID < r.minID
  apart : ∀ i ∈ done, ∀ j ∈ done, i ≠ j → ∀ flag, s.allocatedFlags i.reg = some flag →
    s.allocatedFlags j.reg = some flag → i.maxID < j.minID ∨ j.maxID < i.minID
  unset : ∀ i ∈ rest, s.allocatedFlags i.reg = none
  same : ∀ i ∈ done ++ rest, s.allocatedFlagIntervals i = s.allocatedFlags i.reg
  lost : ∀ i ∈ done, s.allocatedFlags i.reg = none → s.flagBooleans i.reg = false

/-- What a block's intervals have in common: each register has one, and each starts at an
instruction and does not end before. -/
structure Family (bools : List GenRegInterval) : Prop where
  nodup : (bools.map GenRegInterval.reg).Nodup
  nonneg : ∀ i ∈ bools, 0 ≤ i.minID
  valid : ∀ i ∈ bools, i.minID ≤ i.maxID

theorem Family.eq_of_reg {bools : List GenRegInterval} (h : Family bools) {i j : GenRegInterval}
    (hi : i ∈ bools) (hj : j ∈ bools) (heq : i.reg = j.reg) : i = j :=
  List.inj_on_of_nodup_map h.nodup hi hj heq

/-! ### One turn -/

section Turn

variable {ending done rest : List GenRegInterval} {s : State} {x interval : GenRegInterval}

theorem take_succ_of_drop {l : List GenRegInterval} {k : ℕ} (h : ending.drop k = x :: l) :
    ending.take (k + 1) = ending.take k ++ [x] := by
  rw [List.take_add_one, ← List.head?_drop, h]
  rfl

/-- A boolean before the second cursor is not behind it. -/
theorem active_of_drop {l : List GenRegInterval} (hnodup : ending.Nodup)
    (h : ending.drop s.endID = x :: l) : s.Active ending x := by
  intro hmem
  rw [← List.take_append_drop s.endID ending, h, List.nodup_append] at hnodup
  exact hnodup.2.2 x hmem x List.mem_cons_self rfl

/-- The second cursor passes a boolean without a flag. -/
theorem Inv.skip {l : List GenRegInterval} (h : Inv ending done rest s)
    (hdrop : ending.drop s.endID = x :: l) (hnone : s.allocatedFlags x.reg = none)
    (hpassed : ∀ r ∈ rest, x.maxID < r.minID) :
    Inv ending done rest { s with endID := s.endID + 1 } := by
  have hactive : ∀ i, State.Active { s with endID := s.endID + 1 } ending i →
      s.Active ending i := by
    intro i hi hmem
    refine hi ?_
    rw [take_succ_of_drop hdrop]
    exact List.mem_append_left _ hmem
  refine
    { free := h.free
      cover := ?_
      idle := fun i hi hi' => h.idle i hi (hactive i hi')
      unique := fun i hi j hj hi' hj' => h.unique i hi j hj (hactive i hi') (hactive j hj')
      passed := ?_
      apart := h.apart
      unset := h.unset
      same := h.same
      lost := h.lost }
  · intro flag hflag
    refine (h.cover flag hflag).imp_right ?_
    rintro ⟨i, hi, hi', hgot⟩
    refine ⟨i, hi, ?_, hgot⟩
    intro hmem
    rw [take_succ_of_drop hdrop] at hmem
    rcases List.mem_append.mp hmem with hmem | hmem
    · exact hi' hmem
    · rw [List.mem_singleton.mp hmem, hnone] at hgot
      cases hgot
  · intro i hi r hr
    rw [take_succ_of_drop hdrop] at hi
    rcases List.mem_append.mp hi with hi | hi
    · exact h.passed i hi r hr
    · rw [List.mem_singleton.mp hi]
      exact hpassed r hr

/-- The second cursor passes a boolean, whose flag becomes free. -/
theorem Inv.release {l : List GenRegInterval} (h : Inv ending done rest s)
    (hnodup : ending.Nodup) (hdrop : ending.drop s.endID = x :: l) (hx : x ∈ done) {flag : ℕ}
    (hflag : s.allocatedFlags x.reg = some flag) (hpassed : ∀ r ∈ rest, x.maxID < r.minID) :
    Inv ending done rest
      { s with freeFlags := flag :: s.freeFlags, endID := s.endID + 1 } := by
  set s' : State := { s with freeFlags := flag :: s.freeFlags, endID := s.endID + 1 }
  have htake := take_succ_of_drop hdrop
  have hxactive := active_of_drop hnodup hdrop
  -- `x` alone leaves the active ones
  have hactive : ∀ i, s'.Active ending i → s.Active ending i ∧ i ≠ x := by
    intro i hi
    refine ⟨fun hmem => hi ?_, fun heq => hi ?_⟩
    · show i ∈ ending.take (s.endID + 1)
      rw [htake]
      exact List.mem_append_left _ hmem
    · show i ∈ ending.take (s.endID + 1)
      rw [htake, heq]
      exact List.mem_append_right _ (List.mem_singleton_self _)
  refine
    { free := List.nodup_cons.mpr ⟨h.idle x hx hxactive flag hflag, h.free⟩
      cover := ?_
      idle := ?_
      unique := fun i hi j hj hi' hj' =>
        h.unique i hi j hj (hactive i hi').1 (hactive j hj').1
      passed := ?_
      apart := h.apart
      unset := h.unset
      same := h.same
      lost := h.lost }
  · intro g hg
    rcases h.cover g hg with hfree | ⟨i, hi, hi', hgot⟩
    · exact .inl (List.mem_cons_of_mem _ hfree)
    · by_cases heq : i = x
      · -- the owner that the second cursor passes gives its flag back
        rw [heq, hflag] at hgot
        rw [← Option.some_inj.mp hgot]
        exact .inl List.mem_cons_self
      · refine .inr ⟨i, hi, ?_, hgot⟩
        intro hmem
        have hmem' : i ∈ ending.take (s.endID + 1) := hmem
        rw [htake] at hmem'
        rcases List.mem_append.mp hmem' with hmem' | hmem'
        · exact hi' hmem'
        · exact heq (List.mem_singleton.mp hmem')
  · intro i hi hi' g hgot hmem
    obtain ⟨hi'', hne⟩ := hactive i hi'
    rcases List.mem_cons.mp hmem with rfl | hmem
    · exact h.unique i hi x hx hi'' hxactive hne g hgot hflag
    · exact h.idle i hi hi'' g hgot hmem
  · intro i hi r hr
    have hi' : i ∈ ending.take (s.endID + 1) := hi
    rw [htake] at hi'
    rcases List.mem_append.mp hi' with hi' | hi'
    · exact h.passed i hi' r hr
    · rw [List.mem_singleton.mp hi']
      exact hpassed r hr

/-- A flag is freed, or else all booleans that have one live on. -/
theorem expire_spec {l : List GenRegInterval} (hnodup : ending.Nodup)
    (hvalid : ∀ i ∈ ending, i.minID ≤ i.maxID)
    (hsorted : ending.Pairwise fun i j => i.maxID ≤ j.maxID)
    (hsplit : (done ++ interval :: rest).Perm ending)
    (hrest : ∀ r ∈ rest, interval.minID ≤ r.minID) (hdrop : ending.drop s.endID = l)
    (h : Inv ending done (interval :: rest) s) :
    Inv ending done (interval :: rest) (expire interval l s) ∧
      (expire interval l s).allocatedFlags = s.allocatedFlags ∧
      ((expire interval l s).freeFlags = [] → ∀ i ∈ done,
        (expire interval l s).Active ending i → interval.minID ≤ i.maxID) := by
  induction l generalizing s with
  | nil =>
    refine ⟨h, rfl, fun _ i hi hactive => absurd ?_ hactive⟩
    show i ∈ ending.take s.endID
    rw [List.take_of_length_le (List.drop_eq_nil_iff.mp hdrop)]
    exact hsplit.mem_iff.mp (List.mem_append_left _ hi)
  | cons x l ih =>
    have hx : x ∈ ending := List.mem_of_mem_drop (hdrop ▸ List.mem_cons_self)
    have hdrop' : ending.drop (s.endID + 1) = l := by
      rw [← List.drop_drop, hdrop]
      rfl
    rw [expire, if_neg (not_lt.mpr (hvalid x hx))]
    by_cases hlate : x.maxID ≥ interval.minID
    · rw [if_pos hlate]
      refine ⟨h, rfl, fun _ i hi hactive => le_trans hlate ?_⟩
      -- the ones before the second cursor end with `x` or later
      have hmem : i ∈ ending := hsplit.mem_iff.mp (List.mem_append_left _ hi)
      rw [← List.take_append_drop s.endID ending, hdrop] at hmem hsorted
      rcases List.mem_append.mp hmem with hmem | hmem
      · exact absurd hmem hactive
      · rcases List.mem_cons.mp hmem with rfl | hmem
        · exact le_rfl
        · exact (List.pairwise_cons.mp (List.pairwise_append.mp hsorted).2.1).1 i hmem
    · rw [if_neg hlate]
      have hpassed : ∀ r ∈ interval :: rest, x.maxID < r.minID := by
        intro r hr
        rcases List.mem_cons.mp hr with rfl | hr
        · exact not_le.mp hlate
        · exact lt_of_lt_of_le (not_le.mp hlate) (hrest r hr)
      cases hflag : s.allocatedFlags x.reg with
      | none => exact ih hdrop' (h.skip hdrop hflag hpassed)
      | some flag =>
        have hdone : x ∈ done := by
          rcases List.mem_append.mp (hsplit.mem_iff.mpr hx) with hdone | hlater
          · exact hdone
          · rw [h.unset x hlater] at hflag
            cases hflag
        refine ⟨h.release hnodup hdrop hdone hflag hpassed, rfl, fun hnil => ?_⟩
        cases hnil

/-- The next boolean gets a flag that is free. -/
theorem Inv.insert {flag : ℕ} {free : List ℕ} (h : Inv ending done (interval :: rest) s)
    (hfree : s.freeFlags = flag :: free) (hfamily : Family (done ++ interval :: rest)) :
    Inv ending (done ++ [interval]) rest
      (State.insert { s with freeFlags := free } interval flag) := by
  have hmem : interval ∈ done ++ interval :: rest := by simp
  have hunset : s.allocatedFlags interval.reg = none := h.unset interval List.mem_cons_self
  have hflags : mapInsert s.allocatedFlags interval.reg flag =
      Function.update s.allocatedFlags interval.reg (some flag) := by
    rw [mapInsert, hunset]
    rfl
  have hintervals : mapInsert s.allocatedFlagIntervals interval flag =
      Function.update s.allocatedFlagIntervals interval (some flag) := by
    rw [mapInsert, h.same interval hmem, hunset]
    rfl
  rw [State.insert, hflags, hintervals]
  set s' : State := ⟨free, Function.update s.allocatedFlags interval.reg (some flag),
    Function.update s.allocatedFlagIntervals interval (some flag), s.flagBooleans, s.endID⟩
  have hnodup := List.nodup_cons.mp (hfree ▸ h.free)
  have hself : s'.allocatedFlags interval.reg = some flag := Function.update_self ..
  have hne : ∀ i ∈ done ++ rest, i.reg ≠ interval.reg := by
    intro i hi heq
    have hregs := hfamily.nodup
    rw [(List.perm_middle.map _).nodup_iff, List.map_cons, List.nodup_cons] at hregs
    exact hregs.1 (heq ▸ List.mem_map_of_mem hi)
  have hold : ∀ i ∈ done ++ rest, s'.allocatedFlags i.reg = s.allocatedFlags i.reg :=
    fun i hi => Function.update_of_ne (hne i hi) ..
  have hdone : ∀ i ∈ done, s'.allocatedFlags i.reg = s.allocatedFlags i.reg :=
    fun i hi => hold i (List.mem_append_left _ hi)
  -- what has been passed ends before `interval` starts, so it is active itself
  have hactive : s.Active ending interval := by
    intro hpassed
    exact absurd (h.passed interval hpassed interval List.mem_cons_self)
      (not_lt.mpr (hfamily.valid interval hmem))
  -- nobody before the second cursor has the flag
  have hothers : ∀ i ∈ done, s.Active ending i → s.allocatedFlags i.reg ≠ some flag :=
    fun i hi hi' hgot => h.idle i hi hi' flag hgot (hfree ▸ List.mem_cons_self)
  -- who had it has been passed, and is over
  have hbefore : ∀ i ∈ done, s.allocatedFlags i.reg = some flag → i.maxID < interval.minID := by
    intro i hi hgot
    by_contra hlate
    refine hothers i hi (fun hpassed => hlate ?_) hgot
    exact h.passed i hpassed interval List.mem_cons_self
  refine
    { free := hnodup.2
      cover := ?_
      idle := ?_
      unique := ?_
      passed := fun i hi r hr => h.passed i hi r (List.mem_cons_of_mem _ hr)
      apart := ?_
      unset := ?_
      same := ?_
      lost := ?_ }
  · intro g hg
    rcases h.cover g hg with hgfree | ⟨i, hi, hi', hgot⟩
    · rw [hfree] at hgfree
      rcases List.mem_cons.mp hgfree with rfl | hgfree
      · exact .inr ⟨interval, by simp, hactive, hself⟩
      · exact .inl hgfree
    · exact .inr ⟨i, List.mem_append_left _ hi, hi', by rw [hdone i hi, hgot]⟩
  · intro i hi hi' g hgot
    rcases List.mem_append.mp hi with hi | hi
    · rw [hdone i hi] at hgot
      have := h.idle i hi hi' g hgot
      rw [hfree] at this
      exact fun hgfree => this (List.mem_cons_of_mem _ hgfree)
    · rw [List.mem_singleton.mp hi, hself] at hgot
      rw [← Option.some_inj.mp hgot]
      exact hnodup.1
  · intro i hi j hj hi' hj' hij g hgot hgot'
    rcases List.mem_append.mp hi with hi | hi <;> rcases List.mem_append.mp hj with hj | hj
    · rw [hdone i hi] at hgot
      rw [hdone j hj] at hgot'
      exact h.unique i hi j hj hi' hj' hij g hgot hgot'
    · rw [List.mem_singleton.mp hj, hself] at hgot'
      rw [hdone i hi, ← Option.some_inj.mp hgot'] at hgot
      exact hothers i hi hi' hgot
    · rw [List.mem_singleton.mp hi, hself] at hgot
      rw [hdone j hj, ← Option.some_inj.mp hgot] at hgot'
      exact hothers j hj hj' hgot'
    · rw [List.mem_singleton.mp hi, List.mem_singleton.mp hj] at hij
      exact hij rfl
  · intro i hi j hj hij g hgot hgot'
    rcases List.mem_append.mp hi with hi | hi <;> rcases List.mem_append.mp hj with hj | hj
    · rw [hdone i hi] at hgot
      rw [hdone j hj] at hgot'
      exact h.apart i hi j hj hij g hgot hgot'
    · rw [List.mem_singleton.mp hj] at hgot' ⊢
      rw [hself] at hgot'
      rw [hdone i hi, ← Option.some_inj.mp hgot'] at hgot
      exact .inl (hbefore i hi hgot)
    · rw [List.mem_singleton.mp hi] at hgot ⊢
      rw [hself] at hgot
      rw [hdone j hj, ← Option.some_inj.mp hgot] at hgot'
      exact .inr (hbefore j hj hgot')
    · rw [List.mem_singleton.mp hi, List.mem_singleton.mp hj] at hij
      exact absurd rfl hij
  · intro i hi
    rw [hold i (List.mem_append_right _ hi)]
    exact h.unset i (List.mem_cons_of_mem _ hi)
  · intro i hi
    rw [List.append_assoc] at hi
    by_cases heq : i = interval
    · rw [heq, hself]
      exact Function.update_self ..
    · have hreg : i.reg ≠ interval.reg :=
        fun hreg => heq (hfamily.eq_of_reg hi hmem hreg)
      show Function.update s.allocatedFlagIntervals interval (some flag) i =
        Function.update s.allocatedFlags interval.reg (some flag) i.reg
      rw [Function.update_of_ne heq, Function.update_of_ne hreg]
      exact h.same i hi
  · intro i hi hnone
    rcases List.mem_append.mp hi with hi | hi
    · rw [hdone i hi] at hnone
      exact h.lost i hi hnone
    · rw [List.mem_singleton.mp hi, hself] at hnone
      cases hnone

/-- A boolean loses its flag, which becomes free. -/
def State.evict (s : State) (x : GenRegInterval) (flag : ℕ) : State :=
  { s with
    freeFlags := flag :: s.freeFlags
    allocatedFlags := Function.update s.allocatedFlags x.reg none
    allocatedFlagIntervals := Function.update s.allocatedFlagIntervals x none
    flagBooleans := Function.update s.flagBooleans x.reg false }

theorem evict_flags (s : State) (x : GenRegInterval) (flag reg : ℕ) :
    (s.evict x flag).allocatedFlags reg = if reg = x.reg then none else s.allocatedFlags reg :=
  Function.update_apply ..

theorem evict_intervals (s : State) (x i : GenRegInterval) (flag : ℕ) :
    (s.evict x flag).allocatedFlagIntervals i =
      if i = x then none else s.allocatedFlagIntervals i :=
  Function.update_apply ..

theorem evict_booleans (s : State) (x : GenRegInterval) (flag reg : ℕ) :
    (s.evict x flag).flagBooleans reg = if reg = x.reg then false else s.flagBooleans reg :=
  Function.update_apply ..

theorem Inv.evict {flag : ℕ} (h : Inv ending done rest s) (hfamily : Family (done ++ rest))
    (hx : x ∈ done) (hactive : s.Active ending x) (hflag : s.allocatedFlags x.reg = some flag) :
    Inv ending done rest (s.evict x flag) := by
  have hmem : x ∈ done ++ rest := List.mem_append_left _ hx
  have hkept : ∀ reg g, (s.evict x flag).allocatedFlags reg = some g →
      s.allocatedFlags reg = some g ∧ reg ≠ x.reg := by
    intro reg g hgot
    rw [evict_flags] at hgot
    split_ifs at hgot with hreg
    exact ⟨hgot, hreg⟩
  refine
    { free := List.nodup_cons.mpr ⟨h.idle x hx hactive flag hflag, h.free⟩
      cover := ?_
      idle := ?_
      unique := fun i hi j hj hi' hj' hij g hgot hgot' =>
        h.unique i hi j hj hi' hj' hij g (hkept _ _ hgot).1 (hkept _ _ hgot').1
      passed := h.passed
      apart := fun i hi j hj hij g hgot hgot' =>
        h.apart i hi j hj hij g (hkept _ _ hgot).1 (hkept _ _ hgot').1
      unset := ?_
      same := ?_
      lost := ?_ }
  · intro g hg
    rcases h.cover g hg with hgfree | ⟨i, hi, hi', hgot⟩
    · exact .inl (List.mem_cons_of_mem _ hgfree)
    · by_cases hreg : i.reg = x.reg
      · rw [hreg, hflag] at hgot
        rw [← Option.some_inj.mp hgot]
        exact .inl List.mem_cons_self
      · exact .inr ⟨i, hi, hi', by rw [evict_flags, if_neg hreg, hgot]⟩
  · intro i hi hi' g hgot hgfree
    obtain ⟨hhas, hreg⟩ := hkept _ _ hgot
    rcases List.mem_cons.mp hgfree with rfl | hgfree
    · exact h.unique i hi x hx hi' hactive (fun heq => hreg (heq ▸ rfl)) g hhas hflag
    · exact h.idle i hi hi' g hhas hgfree
  · intro i hi
    rw [evict_flags, h.unset i hi, ite_self]
  · intro i hi
    have hreg : i.reg = x.reg ↔ i = x :=
      ⟨fun hreg => hfamily.eq_of_reg hi hmem hreg, fun heq => heq ▸ rfl⟩
    rw [evict_intervals, evict_flags, h.same i hi]
    simp only [hreg]
  · intro i hi hnone
    rw [evict_flags] at hnone
    rw [evict_booleans]
    split_ifs at hnone ⊢ with hreg
    · rfl
    · exact h.lost i hi hnone

/-- The flag of another goes to the interval as if it were free. -/
theorem spill_eq {flag : ℕ} (hinterval : s.allocatedFlags interval.reg = none)
    (hsame : s.allocatedFlagIntervals interval = none) (hreg : interval.reg ≠ x.reg) :
    s.spill interval x flag =
      State.insert { s.evict x flag with freeFlags := s.freeFlags } interval flag := by
  have hne : interval ≠ x := fun heq => hreg (heq ▸ rfl)
  simp only [State.spill, State.insert, State.evict, mapInsert, hinterval, hsame,
    Function.update_of_ne hreg, Function.update_of_ne hne, Option.isSome_none,
    Bool.false_eq_true, if_false]
  rw [Function.update_comm hreg, Function.update_comm hne]

/-- The boolean lives on behind the start of the interval, with a flag that can be taken. -/
structure CanLose (interval : GenRegInterval) (flags : GenRegInterval → Option ℕ) (flag : ℕ)
    (i : GenRegInterval) : Prop where
  has : flags i = some flag
  late : interval.minID < i.maxID
  spare : flag ≠ 0

/-- What is found can be taken, and what can be taken is found. -/
theorem foldl_better {flags : GenRegInterval → Option ℕ} (addresses : List GenRegInterval)
    {best : Candidate} (hbest : ∀ flag i, best.2 = some (flag, i) →
      i ∈ done ∧ CanLose interval flags flag i) (hnone : best.2 = none → best.1 = 0)
    (hdone : ∀ i ∈ addresses, (flags i).isSome = true → i ∈ done) :
    let r := addresses.foldl (better interval flags) best
    (∀ flag i, r.2 = some (flag, i) → i ∈ done ∧ CanLose interval flags flag i) ∧
      (r.2 = none → r.1 = 0) ∧ best.1 ≤ r.1 ∧
      ∀ i ∈ addresses, ∀ flag, CanLose interval flags flag i → i.maxID ≤ r.1 := by
  induction addresses generalizing best with
  | nil => exact ⟨hbest, hnone, le_rfl, fun _ hi => absurd hi List.not_mem_nil⟩
  | cons x addresses ih =>
    have hrest : ∀ i ∈ addresses, (flags i).isSome = true → i ∈ done :=
      fun i hi => hdone i (List.mem_cons_of_mem _ hi)
    -- one boolean more
    have hstep : (∀ flag i, (better interval flags best x).2 = some (flag, i) →
          i ∈ done ∧ CanLose interval flags flag i) ∧
        ((better interval flags best x).2 = none → (better interval flags best x).1 = 0) ∧
        best.1 ≤ (better interval flags best x).1 ∧
        ∀ flag, CanLose interval flags flag x → x.maxID ≤ (better interval flags best x).1 := by
      rw [better]
      cases hflag : flags x with
      | none =>
        refine ⟨hbest, hnone, le_rfl, fun flag hlose => ?_⟩
        have := hlose.has
        rw [hflag] at this
        cases this
      | some flag =>
        dsimp only
        by_cases hearly : x.maxID ≤ interval.minID
        · rw [if_pos hearly]
          exact ⟨hbest, hnone, le_rfl,
            fun _ hlose => absurd hlose.late (not_lt.mpr hearly)⟩
        rw [if_neg hearly]
        by_cases hbetter : x.maxID > best.1 ∧ flag ≠ 0
        · rw [if_pos hbetter]
          refine ⟨?_, fun hnil => absurd hnil (by simp), le_of_lt hbetter.1, fun _ _ => le_rfl⟩
          intro flag' i heq
          obtain ⟨rfl, rfl⟩ := Prod.mk.inj (Option.some_inj.mp heq)
          refine ⟨hdone x List.mem_cons_self (by rw [hflag]; rfl), hflag, not_le.mp hearly, ?_⟩
          exact hbetter.2
        · rw [if_neg hbetter]
          refine ⟨hbest, hnone, le_rfl, fun flag' hlose => ?_⟩
          have hhas := hlose.has
          rw [hflag] at hhas
          have hspare : flag ≠ 0 := Option.some_inj.mp hhas ▸ hlose.spare
          by_contra hless
          exact hbetter ⟨not_le.mp hless, hspare⟩
    obtain ⟨h1, h2, h3, h4⟩ := hstep
    obtain ⟨hr1, hr2, hr3, hr4⟩ := ih h1 h2 hrest
    refine ⟨hr1, hr2, le_trans h3 hr3, fun i hi flag hlose => ?_⟩
    rcases List.mem_cons.mp hi with rfl | hi
    · exact le_trans (h4 flag hlose) hr3
    · exact hr4 i hi flag hlose

/-- Where a flag can be taken one is found. -/
theorem spillCandidate_spec {flags : GenRegInterval → Option ℕ} {addresses : List GenRegInterval}
    (hdone : ∀ i ∈ addresses, (flags i).isSome = true → i ∈ done) {o : GenRegInterval}
    {flag : ℕ} (ho : o ∈ addresses) (hlose : CanLose interval flags flag o)
    (hpos : 0 < o.maxID) :
    ∃ flag x, spillCandidate interval flags addresses = some (flag, x) ∧ x ∈ done ∧
      CanLose interval flags flag x := by
  have hnil : ∀ (flag : ℕ) (i : GenRegInterval),
      ((0, none) : Candidate).2 = some (flag, i) → i ∈ done ∧ CanLose interval flags flag i :=
    fun _ _ heq => by cases heq
  obtain ⟨hfound, hzero, -, hmax⟩ := foldl_better addresses hnil (fun _ => rfl) hdone
  have homax := hmax o ho flag hlose
  rw [spillCandidate]
  generalize addresses.foldl (better interval flags) (0, none) = r at hfound hzero homax
  cases hr : r.2 with
  | none =>
    rw [hzero hr] at homax
    omega
  | some best =>
    obtain ⟨flag', x⟩ := best
    obtain ⟨hx, hlose'⟩ := hfound flag' x hr
    exact ⟨flag', x, rfl, hx, hlose'⟩

/-- One turn of the scan.  The next boolean does not start where another one ends. -/
theorem place_spec {addresses : List GenRegInterval} (h : Inv ending done (interval :: rest) s)
    (hfamily : Family (done ++ interval :: rest))
    (hsplit : (done ++ interval :: rest).Perm ending) (haddresses : addresses.Perm ending)
    (hsorted : ending.Pairwise fun i j => i.maxID ≤ j.maxID)
    (hrest : ∀ r ∈ rest, interval.minID ≤ r.minID)
    (hapart : ∀ i ∈ done, i.maxID ≠ interval.minID) :
    ∃ s', place ending addresses s interval = some s' ∧ Inv ending (done ++ [interval]) rest s' ∧
      ∀ reg, reg ≠ interval.reg → s.allocatedFlags reg = some 0 →
        s'.allocatedFlags reg = some 0 := by
  have hnodup : ending.Nodup :=
    hsplit.nodup_iff.mp (List.Nodup.of_map _ hfamily.nodup)
  have hvalid : ∀ i ∈ ending, i.minID ≤ i.maxID :=
    fun i hi => hfamily.valid i (hsplit.mem_iff.mpr hi)
  have hkeep : ∀ (t : State) (flag reg : ℕ), reg ≠ interval.reg →
      t.allocatedFlags reg = some 0 → (t.insert interval flag).allocatedFlags reg = some 0 := by
    intro t flag reg hreg hzero
    simp only [State.insert, mapInsert]
    split_ifs
    · exact hzero
    · rw [Function.update_of_ne hreg]
      exact hzero
  rw [place]
  cases hfree : s.freeFlags with
  | cons flag free =>
    -- a flag is free at once
    exact ⟨_, rfl, h.insert hfree hfamily, fun reg hreg hzero => hkeep _ _ reg hreg hzero⟩
  | nil =>
    obtain ⟨hinv, hflags, hlive⟩ :=
      expire_spec hnodup hvalid hsorted hsplit hrest rfl h
    dsimp only
    generalize expire interval (ending.drop s.endID) s = t at hinv hflags hlive
    -- either the second cursor has freed one, or every owner lives on
    cases htfree : t.freeFlags with
    | cons flag free =>
      refine ⟨_, rfl, hinv.insert htfree hfamily, fun reg hreg hzero => ?_⟩
      rw [← hflags] at hzero
      exact hkeep _ _ reg hreg hzero
    | nil =>
      -- the one that has the flag 2 lives on behind the start of the interval
      obtain ⟨o, ho, hoactive, hoflag⟩ :
          ∃ i ∈ done, t.Active ending i ∧ t.allocatedFlags i.reg = some 2 := by
        rcases hinv.cover 2 (by simp) with hmem | howner
        · rw [htfree] at hmem
          exact absurd hmem List.not_mem_nil
        · exact howner
      have holate : interval.minID < o.maxID :=
        lt_of_le_of_ne (hlive htfree o ho hoactive) (Ne.symm (hapart o ho))
      have hpos : 0 ≤ interval.minID := hfamily.nonneg interval (by simp)
      have hin : ∀ i ∈ addresses, i ∈ done ++ interval :: rest :=
        fun i hi => hsplit.mem_iff.mpr (haddresses.mem_iff.mp hi)
      have hhas : ∀ i ∈ addresses, (t.allocatedFlagIntervals i).isSome = true → i ∈ done := by
        intro i hi hsome
        rw [hinv.same i (hin i hi)] at hsome
        rcases List.mem_append.mp (hin i hi) with hdone | hlater
        · exact hdone
        · rw [hinv.unset i hlater] at hsome
          cases hsome
      have hmem : o ∈ done ++ interval :: rest := List.mem_append_left _ ho
      have hlose : CanLose interval t.allocatedFlagIntervals 2 o :=
        ⟨by rw [hinv.same o hmem, hoflag], holate, by decide⟩
      -- so there is a candidate, and the flag of the one chosen is moved
      obtain ⟨flag, x, hcandidate, hx, hxlose⟩ := spillCandidate_spec hhas
        (haddresses.mem_iff.mpr (hsplit.mem_iff.mp hmem)) hlose (by omega)
      have hxmem : x ∈ done ++ interval :: rest := List.mem_append_left _ hx
      have hxflag : t.allocatedFlags x.reg = some flag := by
        rw [← hinv.same x hxmem]
        exact hxlose.has
      have hxactive : t.Active ending x := fun hpassed =>
        absurd (hinv.passed x hpassed interval List.mem_cons_self)
          (not_lt.mpr (le_of_lt hxlose.late))
      have hunset : t.allocatedFlags interval.reg = none :=
        hinv.unset interval List.mem_cons_self
      have hreg : interval.reg ≠ x.reg := by
        intro heq
        rw [← heq, hunset] at hxflag
        cases hxflag
      have hsame : t.allocatedFlagIntervals interval = none := by
        rw [hinv.same interval (by simp), hunset]
      rw [hcandidate]
      refine ⟨_, rfl, ?_, ?_⟩
      · rw [spill_eq hunset hsame hreg]
        exact (hinv.evict hfamily hx hxactive hxflag).insert rfl hfamily
      · intro reg hne hzero
        rw [spill_eq hunset hsame hreg]
        refine hkeep _ _ reg hne ?_
        -- `f0.0` is not taken from anybody
        rw [← hflags] at hzero
        show (t.evict x flag).allocatedFlags reg = some 0
        rw [evict_flags, if_neg ?_, hzero]
        rintro rfl
        rw [hzero] at hxflag
        exact hxlose.spare (Option.some_inj.mp hxflag).symm

end Turn

/-! ### The whole scan -/

theorem start_inv (ending bools : List GenRegInterval) (flagBooleans : ℕ → Bool) :
    Inv ending [] bools (start flagBooleans) where
  free := (by decide : [0, 3, 2].Nodup)
  cover := fun _ hflag => .inl hflag
  idle := fun _ hi => absurd hi List.not_mem_nil
  unique := fun _ hi => absurd hi List.not_mem_nil
  passed := fun _ hi => absurd hi List.not_mem_nil
  apart := fun _ hi => absurd hi List.not_mem_nil
  unset := fun _ _ => rfl
  same := fun _ _ => rfl
  lost := fun _ hi => absurd hi List.not_mem_nil

theorem scan_spec {ending addresses : List GenRegInterval} (haddresses : addresses.Perm ending)
    (hsorted : ending.Pairwise fun i j => i.maxID ≤ j.maxID) :
    ∀ {rest done : List GenRegInterval} {s : State}, Inv ending done rest s →
      Family (done ++ rest) → (done ++ rest).Perm ending →
      (rest.Pairwise fun i j => i.minID ≤ j.minID) →
      (∀ i ∈ done ++ rest, ∀ j ∈ rest, i ≠ j → i.maxID ≠ j.minID) →
      ∃ s', scan ending addresses rest s = some s' ∧ Inv ending (done ++ rest) [] s' ∧
        ∀ reg, reg ∉ rest.map GenRegInterval.reg → s.allocatedFlags reg = some 0 →
          s'.allocatedFlags reg = some 0 := by
  intro rest
  induction rest with
  | nil =>
    intro done s h _ _ _ _
    rw [List.append_nil]
    exact ⟨s, rfl, h, fun _ _ hzero => hzero⟩
  | cons interval rest ih =>
    intro done s h hfamily hsplit hstart hapart
    obtain ⟨hfirst, hstart⟩ := List.pairwise_cons.mp hstart
    have hdone : ∀ i ∈ done, i.maxID ≠ interval.minID := by
      intro i hi
      refine hapart i (List.mem_append_left _ hi) interval List.mem_cons_self ?_
      rintro rfl
      have hregs := List.Nodup.of_map _ hfamily.nodup
      exact (List.nodup_append.mp hregs).2.2 i hi i List.mem_cons_self rfl
    obtain ⟨s1, h1, hinv1, hzero1⟩ :=
      place_spec h hfamily hsplit haddresses hsorted hfirst hdone
    have hassoc : done ++ interval :: rest = done ++ [interval] ++ rest := by simp
    rw [hassoc] at hfamily hsplit hapart ⊢
    obtain ⟨s', h', hinv', hzero'⟩ := ih hinv1 hfamily hsplit hstart
      fun i hi j hj => hapart i hi j (List.mem_cons_of_mem _ hj)
    refine ⟨s', ?_, hinv', ?_⟩
    · rw [scan, h1, Option.bind_some, h']
    · intro reg hreg hzero
      rw [List.map_cons, List.mem_cons, not_or] at hreg
      exact hzero' reg hreg.2 (hzero1 reg hreg.1 hzero)

/-! ### The intervals of a block -/

def INT_MAX : ℤ := 2147483647

/-- What the intervals of the booleans depend on. -/
structure Insn where
  physicalFlag : Bool
  flagIndex : ℕ
  /-- the opcode is `SEL_OP_JMPI` -/
  isJmpi : Bool
  /-- the predicate is not `GEN_PREDICATE_NONE` -/
  predicated : Bool

/-- A boolean occurs at an instruction. -/
def touch (m : List GenRegInterval) (reg : ℕ) (insnID : ℤ) : List GenRegInterval :=
  if m.any fun i => i.reg == reg then
    m.map fun i =>
      if i.reg = reg then ⟨reg, min i.minID insnID, max i.maxID insnID⟩ else i
  else m ++ [⟨reg, min INT_MAX insnID, max (-INT_MAX) insnID⟩]

/-- The boolean is made to start at the beginning. -/
def extend (m : List GenRegInterval) (reg : ℕ) : List GenRegInterval :=
  m.map fun i => if i.reg = reg then { i with minID := 0 } else i

def Insn.jumps (insn : Insn) : Bool := !insn.physicalFlag && insn.isJmpi && insn.predicated

/-- The booleans with an instruction more. -/
def record (last : Bool) (insnID : ℤ) (insn : Insn) (m : List GenRegInterval) :
    List GenRegInterval :=
  if insn.physicalFlag then m
  else
    let m := touch m insn.flagIndex insnID
    if last && insn.isJmpi && insn.predicated then extend m insn.flagIndex else m

/-- `boolsMap` behind the instructions that are left. -/
def boolsMap : List Insn → ℤ → List GenRegInterval → List GenRegInterval
  | [], _, m => m
  | insn :: rest, insnID, m => boolsMap rest (insnID + 2) (record rest.isEmpty insnID insn m)

/-- The boolean of the jump at the end. -/
def jump (insns : List Insn) : Option ℕ :=
  insns.getLast?.bind fun insn => if insn.jumps then some insn.flagIndex else none

/-- A block of selected instructions, numbered from `firstID` in steps of two. -/
structure Block where
  firstID : ℤ
  firstID_nonneg : 0 ≤ firstID
  /-- the selection starts each block with its label, which has no boolean -/
  label : Insn
  label_physical : label.physicalFlag = true
  insns : List Insn
  /-- the numbers are of type `int` -/
  fits : firstID + 2 * (insns.length + 1) ≤ INT_MAX

def Block.bools (B : Block) : List GenRegInterval := boolsMap (B.label :: B.insns) B.firstID []

def Block.jump (B : Block) : Option ℕ := FlagAllocation.jump (B.label :: B.insns)

/-- The instruction with the number has the boolean. -/
def At (insns : List Insn) (firstID id : ℤ) (reg : ℕ) : Prop :=
  ∃ (k : ℕ) (insn : Insn), insns[k]? = some insn ∧ insn.physicalFlag = false ∧
    insn.flagIndex = reg ∧ id = firstID + 2 * k

/-- Both ends of each interval are instructions with its boolean. -/
structure Recorded (insns : List Insn) (firstID : ℤ) (m : List GenRegInterval) : Prop where
  nodup : (m.map GenRegInterval.reg).Nodup
  minAt : ∀ i ∈ m, At insns firstID i.minID i.reg
  maxAt : ∀ i ∈ m, At insns firstID i.maxID i.reg
  valid : ∀ i ∈ m, i.minID ≤ i.maxID

section Record

variable {insns : List Insn} {insn : Insn} {firstID : ℤ} {m : List GenRegInterval}

theorem At.append {id : ℤ} {reg : ℕ} (h : At insns firstID id reg) (insn : Insn) :
    At (insns ++ [insn]) firstID id reg := by
  obtain ⟨k, insn', hk, hrest⟩ := h
  exact ⟨k, insn', List.getElem?_append_left (List.getElem?_eq_some_iff.mp hk).1 ▸ hk, hrest⟩

/-- An instruction has one boolean at most. -/
theorem At.unique {id : ℤ} {reg reg' : ℕ} (h : At insns firstID id reg)
    (h' : At insns firstID id reg') : reg = reg' := by
  obtain ⟨k, insn, hk, -, rfl, hid⟩ := h
  obtain ⟨k', insn', hk', -, rfl, hid'⟩ := h'
  have : k = k' := by omega
  subst this
  rw [hk] at hk'
  rw [Option.some_inj.mp hk']

theorem map_reg_touch (m : List GenRegInterval) (reg : ℕ) (insnID : ℤ) :
    (touch m reg insnID).map GenRegInterval.reg =
      if reg ∈ m.map GenRegInterval.reg then m.map GenRegInterval.reg
      else m.map GenRegInterval.reg ++ [reg] := by
  have hany : (m.any fun i => i.reg == reg) = true ↔ reg ∈ m.map GenRegInterval.reg := by
    simp [List.any_eq_true, List.mem_map]
  rw [touch]
  by_cases hreg : reg ∈ m.map GenRegInterval.reg
  · rw [if_pos (hany.mpr hreg), if_pos hreg, List.map_map]
    refine List.map_congr_left fun i _ => ?_
    by_cases heq : i.reg = reg
    · simp [heq]
    · simp [heq]
  · rw [if_neg (fun h => hreg (hany.mp h)), if_neg hreg, List.map_append]
    rfl

theorem map_reg_extend (m : List GenRegInterval) (reg : ℕ) :
    (extend m reg).map GenRegInterval.reg = m.map GenRegInterval.reg := by
  rw [extend, List.map_map]
  refine List.map_congr_left fun i _ => ?_
  by_cases heq : i.reg = reg
  · simp [heq]
  · simp [heq]

/-- One instruction more with a boolean. -/
theorem recorded_touch (h : Recorded insns firstID m) (hvirtual : insn.physicalFlag = false)
    (hlow : 0 ≤ firstID) (hfits : firstID + 2 * insns.length ≤ INT_MAX) :
    Recorded (insns ++ [insn]) firstID
      (touch m insn.flagIndex (firstID + 2 * insns.length)) := by
  have hat : At (insns ++ [insn]) firstID (firstID + 2 * insns.length) insn.flagIndex :=
    ⟨insns.length, insn, by simp, hvirtual, rfl, rfl⟩
  -- an old interval, the one of the flag made longer, or a new one
  have hcases : ∀ i ∈ touch m insn.flagIndex (firstID + 2 * insns.length),
      i ∈ m ∨ (∃ j ∈ m, j.reg = insn.flagIndex ∧
        i = ⟨insn.flagIndex, min j.minID (firstID + 2 * insns.length),
          max j.maxID (firstID + 2 * insns.length)⟩) ∨
        i = ⟨insn.flagIndex, firstID + 2 * insns.length, firstID + 2 * insns.length⟩ := by
    intro i hi
    rw [touch] at hi
    split_ifs at hi with hany
    · obtain ⟨j, hj, rfl⟩ := List.mem_map.mp hi
      split_ifs with heq
      · exact .inr (.inl ⟨j, hj, heq, rfl⟩)
      · exact .inl hj
    · rcases List.mem_append.mp hi with hi | hi
      · exact .inl hi
      · have hmin : min INT_MAX (firstID + 2 * insns.length) = firstID + 2 * insns.length :=
          min_eq_right hfits
        have hmax : max (-INT_MAX) (firstID + 2 * insns.length) = firstID + 2 * insns.length := by
          rw [INT_MAX]
          omega
        rw [List.mem_singleton.mp hi, hmin, hmax]
        exact .inr (.inr rfl)
  refine ⟨?_, ?_, ?_, ?_⟩
  · rw [map_reg_touch]
    split_ifs with hreg
    · exact h.nodup
    · exact List.nodup_append.mpr ⟨h.nodup, List.nodup_singleton _, fun a ha b hb => by
        rw [List.mem_singleton.mp hb]
        rintro rfl
        exact hreg ha⟩
  · intro i hi
    rcases hcases i hi with hi | ⟨j, hj, hreg, rfl⟩ | rfl
    · exact (h.minAt i hi).append insn
    · rcases min_choice j.minID (firstID + 2 * insns.length) with hmin | hmin <;> rw [hmin]
      · exact hreg ▸ (h.minAt j hj).append insn
      · exact hat
    · exact hat
  · intro i hi
    rcases hcases i hi with hi | ⟨j, hj, hreg, rfl⟩ | rfl
    · exact (h.maxAt i hi).append insn
    · rcases max_choice j.maxID (firstID + 2 * insns.length) with hmax | hmax <;> rw [hmax]
      · exact hreg ▸ (h.maxAt j hj).append insn
      · exact hat
    · exact hat
  · intro i hi
    rcases hcases i hi with hi | ⟨j, hj, hreg, rfl⟩ | rfl
    · exact h.valid i hi
    · exact le_trans (min_le_right _ _) (le_max_right _ _)
    · exact le_rfl

/-- What the recorded intervals are behind the last instruction. -/
structure Finished (insns : List Insn) (firstID : ℤ) (m : List GenRegInterval) : Prop where
  nodup : (m.map GenRegInterval.reg).Nodup
  minAt : ∀ i ∈ m, jump insns ≠ some i.reg → At insns firstID i.minID i.reg
  zero : ∀ i ∈ m, jump insns = some i.reg → i.minID = 0
  maxAt : ∀ i ∈ m, At insns firstID i.maxID i.reg
  valid : ∀ i ∈ m, i.minID ≤ i.maxID
  jumps : ∀ reg, jump insns = some reg → reg ∈ m.map GenRegInterval.reg

theorem At.nonneg {id : ℤ} {reg : ℕ} (h : At insns firstID id reg) (hlow : 0 ≤ firstID) :
    0 ≤ id := by
  obtain ⟨k, -, -, -, -, rfl⟩ := h
  omega

theorem jump_append (insns : List Insn) (insn : Insn) :
    jump (insns ++ [insn]) = if insn.jumps then some insn.flagIndex else none := by
  rw [jump, List.getLast?_concat, Option.bind_some]

/-- An instruction in the middle. -/
theorem recorded_record (insn : Insn) (h : Recorded insns firstID m) (hlow : 0 ≤ firstID)
    (hfits : firstID + 2 * insns.length ≤ INT_MAX) :
    Recorded (insns ++ [insn]) firstID (record false (firstID + 2 * insns.length) insn m) := by
  rw [record]
  by_cases hphysical : insn.physicalFlag = true
  · rw [if_pos hphysical]
    exact ⟨h.nodup, fun i hi => (h.minAt i hi).append insn, fun i hi => (h.maxAt i hi).append insn,
      h.valid⟩
  · rw [if_neg hphysical]
    exact recorded_touch h (Bool.eq_false_iff.mpr hphysical) hlow hfits

/-- The last instruction. -/
theorem recorded_finish (h : Recorded insns firstID m) (hlow : 0 ≤ firstID)
    (hfits : firstID + 2 * insns.length ≤ INT_MAX) :
    Finished (insns ++ [insn]) firstID
      (record true (firstID + 2 * insns.length) insn m) := by
  by_cases hjumps : insn.jumps = true
  · -- the boolean of the jump is made to live from the start of the block
    have hjump : jump (insns ++ [insn]) = some insn.flagIndex := by
      rw [jump_append, if_pos hjumps]
    simp only [Insn.jumps, Bool.and_eq_true, Bool.not_eq_true'] at hjumps
    obtain ⟨⟨hvirtual, hjmpi⟩, hpredicated⟩ := hjumps
    have hrec := recorded_touch h hvirtual hlow hfits
    rw [record, hvirtual, hjmpi, hpredicated]
    simp only [Bool.false_eq_true, if_false, Bool.and_self, if_true]
    have hmem : ∀ i ∈ extend (touch m insn.flagIndex (firstID + 2 * insns.length))
        insn.flagIndex, ∃ j ∈ touch m insn.flagIndex (firstID + 2 * insns.length),
        i.reg = j.reg ∧ i.maxID = j.maxID ∧
          i.minID = if i.reg = insn.flagIndex then 0 else j.minID := by
      intro i hi
      obtain ⟨j, hj, rfl⟩ := List.mem_map.mp hi
      refine ⟨j, hj, ?_⟩
      split_ifs with heq <;> simp [heq]
    refine ⟨?_, ?_, ?_, ?_, ?_, ?_⟩
    · rw [map_reg_extend]
      exact hrec.nodup
    · intro i hi hne
      obtain ⟨j, hj, hreg, -, hmin⟩ := hmem i hi
      have hother : i.reg ≠ insn.flagIndex := fun heq => hne (heq ▸ hjump)
      rw [if_neg hother] at hmin
      rw [hreg, hmin]
      exact hrec.minAt j hj
    · intro i hi heq
      obtain ⟨j, -, -, -, hmin⟩ := hmem i hi
      rw [hjump] at heq
      rw [hmin, if_pos (Option.some_inj.mp heq).symm]
    · intro i hi
      obtain ⟨j, hj, hreg, hmax, -⟩ := hmem i hi
      rw [hreg, hmax]
      exact hrec.maxAt j hj
    · intro i hi
      obtain ⟨j, hj, -, hmax, hmin⟩ := hmem i hi
      rw [hmax, hmin]
      split_ifs
      · exact (hrec.maxAt j hj).nonneg hlow
      · exact hrec.valid j hj
    · intro reg hreg
      rw [hjump] at hreg
      rw [map_reg_extend, map_reg_touch, ← Option.some_inj.mp hreg]
      split_ifs with hin
      · exact hin
      · exact List.mem_append_right _ (List.mem_singleton_self _)
  · -- no jump: the last instruction is like those in the middle
    have hjump : jump (insns ++ [insn]) = none := by
      rw [jump_append, if_neg hjumps]
    have hsame : record true (firstID + 2 * insns.length) insn m =
        record false (firstID + 2 * insns.length) insn m := by
      rw [record, record]
      simp only [Insn.jumps, Bool.and_eq_true, Bool.not_eq_true', not_and] at hjumps
      by_cases hphysical : insn.physicalFlag = true
      · rw [if_pos hphysical, if_pos hphysical]
      · rw [if_neg hphysical, if_neg hphysical]
        by_cases hjmpi : insn.isJmpi = true
        · have := hjumps ⟨Bool.eq_false_iff.mpr hphysical, hjmpi⟩
          simp [hjmpi, this]
        · simp [hjmpi]
    have hrec := recorded_record insn h hlow hfits
    rw [hsame]
    refine ⟨hrec.nodup, fun i hi _ => hrec.minAt i hi, ?_, hrec.maxAt, hrec.valid, ?_⟩
    · intro i _ heq
      rw [hjump] at heq
      cases heq
    · intro reg heq
      rw [hjump] at heq
      cases heq

theorem boolsMap_spec {rest : List Insn} (hrest : rest ≠ []) (hlow : 0 ≤ firstID)
    (hfits : firstID + 2 * (insns.length + rest.length : ℕ) ≤ INT_MAX)
    (h : Recorded insns firstID m) :
    Finished (insns ++ rest) firstID (boolsMap rest (firstID + 2 * insns.length) m) := by
  induction rest generalizing insns m with
  | nil => exact absurd rfl hrest
  | cons insn rest ih =>
    rw [List.length_cons] at hfits
    rw [boolsMap]
    cases rest with
    | nil => exact recorded_finish h hlow (by omega)
    | cons next rest =>
      have hlength : firstID + 2 * (insns.length : ℤ) + 2 =
          firstID + 2 * ((insns ++ [insn]).length : ℤ) := by
        rw [List.length_append, List.length_singleton]
        push_cast
        omega
      rw [hlength, List.append_cons]
      refine ih (by simp) ?_ (recorded_record insn h hlow (by omega))
      rw [List.length_append, List.length_singleton]
      omega

end Record

namespace Block

variable (B : Block)

theorem finished : Finished (B.label :: B.insns) B.firstID B.bools := by
  have hnil : Recorded [] B.firstID [] :=
    ⟨List.nodup_nil, fun _ hi => absurd hi List.not_mem_nil,
      fun _ hi => absurd hi List.not_mem_nil, fun _ hi => absurd hi List.not_mem_nil⟩
  have hfits := B.fits
  have := boolsMap_spec (List.cons_ne_nil B.label B.insns) B.firstID_nonneg
    (by rw [List.length_cons, List.length_nil]; omega) hnil
  have hid : B.firstID + 2 * (([] : List Insn).length : ℤ) = B.firstID := by simp
  rw [hid] at this
  exact this

variable {B}

/-- The label has no boolean, so all that occurs has a positive number. -/
theorem at_pos {id : ℤ} {reg : ℕ} (h : At (B.label :: B.insns) B.firstID id reg) : 0 < id := by
  obtain ⟨k, insn, hk, hvirtual, -, rfl⟩ := h
  have hlow := B.firstID_nonneg
  cases k with
  | zero =>
    rw [List.getElem?_cons_zero] at hk
    rw [← Option.some_inj.mp hk, B.label_physical] at hvirtual
    cases hvirtual
  | succ k => omega

theorem minID_pos {i : GenRegInterval} (hi : i ∈ B.bools) (hjump : B.jump ≠ some i.reg) :
    0 < i.minID :=
  at_pos (B.finished.minAt i hi hjump)

theorem bools_family : Family B.bools where
  nodup := B.finished.nodup
  nonneg := by
    intro i hi
    by_cases hjump : B.jump = some i.reg
    · exact (B.finished.zero i hi hjump).ge
    · exact (minID_pos hi hjump).le
  valid := B.finished.valid

/-- No boolean ends where one starts that is not the one of the jump. -/
theorem bools_apart {i j : GenRegInterval} (hi : i ∈ B.bools) (hj : j ∈ B.bools) (hij : i ≠ j)
    (hjump : B.jump ≠ some j.reg) : i.maxID ≠ j.minID := by
  intro heq
  have hend := B.finished.maxAt i hi
  rw [heq] at hend
  exact hij (bools_family.eq_of_reg hi hj (hend.unique (B.finished.minAt j hj hjump)))

end Block

/-- `allocateFlags` on one block, with the orders that the two sorts have left. -/
def allocateFlags (starting ending addresses : List GenRegInterval) (flagBooleans : ℕ → Bool) :
    Option State :=
  scan ending addresses starting (start flagBooleans)

/-- The instructions of the boolean use a flag of its own. -/
def State.Dedicated (s : State) (reg : ℕ) : Prop := (s.allocatedFlags reg).isSome = true

/-- The instructions of the boolean use the temporary flag, which is made from the general
register that the boolean then has. -/
def State.Temporary (s : State) (reg : ℕ) : Prop :=
  s.allocatedFlags reg = none ∧ s.flagBooleans reg = false

/-- A comparison into `b5`, one into `b4`, and a jump on `b4`. -/
def jumpBlock : Block where
  firstID := 0
  firstID_nonneg := le_rfl
  label := ⟨true, 0, false, false⟩
  label_physical := rfl
  insns := [⟨false, 5, false, false⟩, ⟨false, 4, false, false⟩, ⟨false, 4, true, true⟩]
  fits := by decide

/-- By their starts: `b4`, then `b5`. -/
def jumpStarting : List (Fin jumpBlock.bools.length) := (List.finRange 2).reverse

def jumpEnding : List (Fin jumpBlock.bools.length) := List.finRange 2

end FlagAllocation

end Backend
