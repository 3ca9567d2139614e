/-
Merging loads and stores into vector accesses: `GenLoadStoreOptimization` of
`llvm_loadstore_optimization.cpp`, one basic block at a time.

The pass walks over the block.  At a scalar load or store it looks ahead for accesses
of the same kind at a constant distance (`findConsecutiveAccess`), sorts them by the
distance and takes a run without gaps that the access itself belongs to.  A run of loads
becomes one vector load in front of the first (`mergeLoad`), a run of stores one vector
store in front of the last (`mergeStore`).

What the pass asks LLVM for is a parameter: the constant distances of scalar evolution,
the types of pointers, the number of instructions that the builder really makes, and the
order in which `std::sort` leaves equal keys.  Where the source goes on with an iterator
to an erased instruction, or builds a vector of values of different types, there is no
result.

* `optimizeLoadStore` — the pass;
* `findConsecutiveAccess_spec` — what is merged: different accesses at consecutive
  addresses.
-/
import Beignet.Lib.Memory

open Memory

namespace Llvm.LoadStore

/-! ### Blocks -/

/-- An SSA value. -/
abbrev Id := ℕ

abbrev Byte := BitVec 8

inductive Ty
  | float
  | int (bits : ℕ)
  | vector (bytes : ℕ)
  | other (bytes : ℕ)
  deriving DecidableEq

def Ty.storeSize : Ty → ℕ
  | float => 4
  | int bits => (bits + 7) / 8
  | vector bytes => bytes
  | other bytes => bytes

/-- The operands of a load or store; `ptrTy` is the type of the pointer as LLVM compares
it, and `ty` that of the value. -/
structure Access where
  ptr : Id
  space : ℕ
  ptrTy : ℕ
  ty : Ty
  simple : Bool

abbrev Mem := ℤ → Byte

/-- A vector access stands together with the instructions that the builder makes for it:
a vector load with its `extractelement`s, which take over the names of the loads, and a
vector store with its `insertelement`s and the computation of the pointer. -/
inductive Insn
  | load (dst : Id) (a : Access)
  | store (value : Id) (a : Access)
  | call (dst : Id) (args : List Id) (f : List ℤ → Mem → ℤ × Mem)
  | pure (dst : Id) (args : List Id) (f : List ℤ → ℤ)
  | vecLoad (dsts : List Id) (a : Access) (offset : ℤ)
  | vecStore (values : List Id) (a : Access) (offset : ℤ) (helpers : ℕ)

/-- An access found by the search: how far behind the start it stands, and the distance
of its address. -/
structure MergedInfo where
  mInsn : ℕ
  mOffset : ℤ

/-- What the pass asks LLVM and the library for. -/
structure Target where
  /-- the constant difference of two pointers -/
  minus : Id → Id → Option ℤ
  /-- the type of a pointer to a vector -/
  vectorPtrTy : ℕ → ℕ → ℕ
  /-- how many instructions the builder makes in front of a vector store -/
  helpers : List Id → ℤ → ℕ
  sort : List MergedInfo → List MergedInfo
  sort_perm : ∀ l, (sort l).Perm l
  sort_sorted : ∀ l, (sort l).Pairwise fun a b => a.mOffset ≤ b.mOffset

/-! ### The search -/

section Search

variable (T : Target)

/-- The number of instructions that the window counts. -/
def Insn.count : Insn → ℕ
  | .vecStore _ _ _ helpers => helpers + 1
  | _ => 1

/-- Whether an instruction is a load, and its operands.  The pointer of a vector access
with an offset comes from an `inttoptr`, about which scalar evolution knows nothing. -/
def Target.view : Insn → Option (Bool × Access × Bool)
  | .load _ a => some (true, a, true)
  | .store _ a => some (false, a, true)
  | .vecLoad dsts a offset => some (true, vector dsts.length a, decide (offset = 0))
  | .vecStore values a offset _ => some (false, vector values.length a, decide (offset = 0))
  | _ => none
where
  vector (n : ℕ) (a : Access) : Access :=
    { a with ptrTy := T.vectorPtrTy a.ptrTy n, ty := .vector (n * a.ty.storeSize), simple := true }

/-- The distance of the second access from the first, if it is a candidate. -/
def isLoadStoreCompatible (A B : Access) (known : Bool) (maxVecSize : ℕ) : Option ℤ :=
  if A.space ≠ B.space then none
  else if ¬ (A.simple ∧ B.simple) then none
  else if A.ptrTy ≠ B.ptrTy then none
  else match (if known then T.minus A.ptr B.ptr else none) with
    | none => none
    | some offset =>
      if |(-offset)| < (A.ty.storeSize * maxVecSize : ℕ) then some (-offset) else none

/-- The loop over the window.  `k` is the place of the next instruction, `budget` how
many more may be looked at. -/
def search (start : Access) (isLoad : Bool) (maxVecSize : ℕ) :
    ℕ → ℕ → Bool → List MergedInfo → Bool → List Insn → List MergedInfo × Bool
  | _, _, _, infos, reorder, [] => (infos, reorder)
  | k, budget, cross, infos, reorder, J :: rest =>
    if budget < J.count then (infos, reorder)
    else match T.view J with
      | some (isLoad', B, known) =>
        if isLoad' = isLoad then
          match isLoadStoreCompatible T start B known maxVecSize with
          | some distance =>
            if 32 ≤ infos.length + 1 then (infos ++ [⟨k, distance⟩], reorder || cross)
            else search start isLoad maxVecSize (k + 1) (budget - J.count) cross
              (infos ++ [⟨k, distance⟩]) (reorder || cross) rest
          | none =>
            search start isLoad maxVecSize (k + 1) (budget - J.count) cross infos reorder rest
        else if B.space ≠ start.space then
          search start isLoad maxVecSize (k + 1) (budget - J.count) true infos reorder rest
        else (infos, reorder)
      -- neither a load nor a store: calls are passed over as well
      | none => search start isLoad maxVecSize (k + 1) (budget - J.count) cross infos reorder rest

/-- How many steps of one element the list starts with, and whether the start of the
search is among them. -/
def consecutive (elementSize : ℤ) : ℕ → List MergedInfo → ℕ × Bool
  | limit + 1, a :: b :: l =>
    if b.mOffset - a.mOffset ≠ elementSize then (0, false)
    else
      let (j, ready) := consecutive elementSize limit (b :: l)
      (j + 1, ready || decide (a.mOffset = 0) || decide (b.mOffset = 0))
  | _, _ => (0, false)

/-- The lengths of vectors. -/
def vecLength (n : ℕ) : ℕ := if 16 ≤ n then 16 else if 8 ≤ n then 8 else if 4 ≤ n then 4 else n

/-- The first run in the sorted list.  A run that holds the start ends the loop, so that
`ready` is never left over from an earlier one. -/
def findRun (elementSize : ℤ) (maxVecSize : ℕ) : List MergedInfo → List MergedInfo
  | [] => []
  | a :: l =>
    let (j, ready) := consecutive elementSize (maxVecSize - 1) (a :: l)
    if 0 < j ∧ ready then (a :: l).take (vecLength (j + 1))
    else findRun elementSize maxVecSize l

/-- The number of elements of a vector of values of this type; stores are merged for
double words only. -/
def maxVecSize? (isLoad : Bool) : Ty → Option ℕ
  | .float => some 4
  | .int 32 => some 4
  | .int 16 => if isLoad then some 8 else none
  | .int 8 => if isLoad then some 16 else none
  | _ => none

/-- A run to be merged. -/
structure Merge where
  isLoad : Bool
  first : Access
  merged : List MergedInfo
  reorder : Bool

/-- The scalar accesses that a search starts from. -/
def Insn.scalar? : Insn → Option (Bool × Access)
  | .load _ a => some (true, a)
  | .store _ a => some (false, a)
  | _ => none

def findConsecutiveAccess : List Insn → Option Merge
  | [] => none
  | x :: rest => do
    let (isLoad, first) ← x.scalar?
    let maxVecSize ← maxVecSize? isLoad first.ty
    if first.simple then
      let (infos, reorder) := search T first isLoad maxVecSize 1 (maxVecSize * 8 + 1) false [⟨0, 0⟩]
        false rest
      let merged := findRun first.ty.storeSize maxVecSize (T.sort infos)
      if merged = [] then none else some ⟨isLoad, first, merged, reorder⟩
    else none

end Search

/-! ### Merging -/

namespace Merge

variable (m : Merge)

/-- The places of the accesses that are merged, and then erased. -/
def places : List ℕ := m.merged.map MergedInfo.mInsn

/-- The address of the vector, from that of the first access of the search. -/
def addrOffset : ℤ := (m.merged.map MergedInfo.mOffset).headD 0

/-- The value of an access of the kind and the type of the run. -/
def operand : Insn → Option Id
  | .load d a => if m.isLoad = true ∧ a.ty = m.first.ty then some d else none
  | .store v a => if m.isLoad = false ∧ a.ty = m.first.ty then some v else none
  | _ => none

/-- The values can be the elements of one vector. -/
def WellTyped (rest : List Insn) : Prop :=
  ∀ i ∈ m.places, ((rest[i]?).bind m.operand).isSome

instance (rest : List Insn) : Decidable (m.WellTyped rest) :=
  inferInstanceAs (Decidable (∀ i ∈ m.places, _))

def operands (rest : List Insn) : List Id :=
  m.places.map fun i => ((rest[i]?).bind m.operand).getD 0

/-- The new access. -/
def vec (T : Target) (rest : List Insn) : Insn :=
  if m.isLoad then .vecLoad (m.operands rest) m.first m.addrOffset
  else .vecStore (m.operands rest) m.first m.addrOffset (T.helpers (m.operands rest) m.addrOffset)

/-- The place of the last of the accesses. -/
def last : ℕ := m.places.foldr max 0

/-- The place that a vector store is put in front of. -/
def insertAt : Option ℕ := if m.isLoad then none else some m.last

/-- Where the walk goes on. -/
def findSafeInstruction (rest : List Insn) : ℕ :=
  if m.reorder then ((List.range rest.length).find? (· ∉ m.places)).getD rest.length
  else m.places.getLastD 0 + 1

end Merge

/-- The instructions from place `k` on without the merged ones, and with a vector store
at its place. -/
def rebuild (places : List ℕ) (insertAt : Option ℕ) (vec : Insn) : ℕ → List Insn → List Insn
  | _, [] => []
  | k, x :: l => (if insertAt = some k then [vec] else []) ++ (if k ∈ places then [] else [x]) ++
      rebuild places insertAt vec (k + 1) l

/-- The block, cut where the iterator stands. -/
structure Cursor where
  done : List Insn
  rest : List Insn

/-- A round of the loop over the block. -/
def step (T : Target) (c : Cursor) : Option Cursor :=
  match c.rest with
  | [] => some c
  | x :: l =>
    match findConsecutiveAccess T (x :: l) with
    | none => some ⟨c.done ++ [x], l⟩
    | some m =>
      let safe := m.findSafeInstruction (x :: l)
      if safe ∈ m.places ∨ ¬ m.WellTyped (x :: l) then none
      else
        let vec := m.vec T (x :: l)
        let build := rebuild m.places m.insertAt vec
        let done := c.done ++ (if m.isLoad then [vec] else []) ++ build 0 ((x :: l).take safe)
        match done, build safe ((x :: l).drop safe) with
        -- the iterator is only moved back if it is not at the front of the block
        | [], y :: rest => some ⟨[y], rest⟩
        | done, rest => some ⟨done, rest⟩

def loop (T : Target) : ℕ → Cursor → Option Cursor
  | 0, c => some c
  | fuel + 1, c => if c.rest = [] then some c else (step T c).bind (loop T fuel)

def optimizeLoadStore (T : Target) (block : List Insn) : Option (List Insn) :=
  (loop T block.length ⟨[], block⟩).map fun c => c.done ++ c.rest

/-! ### What is merged -/

section Spec

variable {T : Target}

/-- An access found by the search that starts at place `k` of the list. -/
def Candidate (T : Target) (start : Access) (isLoad : Bool) (k : ℕ) (l : List Insn)
    (i : MergedInfo) : Prop :=
  k ≤ i.mInsn ∧ ∃ J B, l[i.mInsn - k]? = some J ∧ T.view J = some (isLoad, B, true) ∧
    T.minus start.ptr B.ptr = some (-i.mOffset)

theorem Candidate.cons {start : Access} {isLoad : Bool} {k : ℕ} {J : Insn} {l : List Insn}
    {i : MergedInfo} (h : Candidate T start isLoad (k + 1) l i) :
    Candidate T start isLoad k (J :: l) i := by
  obtain ⟨hk, hi⟩ := h
  refine ⟨by omega, ?_⟩
  have hsucc : i.mInsn - k = i.mInsn - (k + 1) + 1 := by omega
  rw [hsucc, List.getElem?_cons_succ]
  exact hi

theorem isLoadStoreCompatible_eq_some {A B : Access} {known : Bool} {maxVecSize : ℕ} {d : ℤ}
    (h : isLoadStoreCompatible T A B known maxVecSize = some d) :
    known = true ∧ T.minus A.ptr B.ptr = some (-d) := by
  unfold isLoadStoreCompatible at h
  split at h
  · cases h
  split at h
  · cases h
  split at h
  · cases h
  split at h
  · cases h
  rename_i offset hoffset
  split at h
  · cases known with
    | false => cases hoffset
    | true =>
      rw [Option.some_inj] at h
      rw [← h, neg_neg]
      exact ⟨rfl, hoffset⟩
  · cases h

/-- The search adds candidates, one place after another. -/
theorem search_spec (start : Access) (isLoad : Bool) (maxVecSize : ℕ) (rest : List Insn) :
    ∀ k budget cross infos reorder, ∃ new,
      (search T start isLoad maxVecSize k budget cross infos reorder rest).1 = infos ++ new ∧
      (∀ i ∈ new, Candidate T start isLoad k rest i) ∧
      new.Pairwise fun i j => i.mInsn < j.mInsn := by
  induction rest with
  | nil =>
    intro k budget cross infos reorder
    exact ⟨[], by simp [search], by simp, List.Pairwise.nil⟩
  | cons J rest ih =>
    intro k budget cross infos reorder
    have hstop : ∃ new, infos = infos ++ new ∧
        (∀ i ∈ new, Candidate T start isLoad k (J :: rest) i) ∧
        new.Pairwise fun i j => i.mInsn < j.mInsn := ⟨[], by simp, by simp, List.Pairwise.nil⟩
    have hgo : ∀ cross, ∃ new, (search T start isLoad maxVecSize (k + 1) (budget - J.count) cross
        infos reorder rest).1 = infos ++ new ∧
        (∀ i ∈ new, Candidate T start isLoad k (J :: rest) i) ∧
        new.Pairwise fun i j => i.mInsn < j.mInsn := by
      intro cross
      obtain ⟨new, heq, hnew, hpair⟩ := ih (k + 1) (budget - J.count) cross infos reorder
      exact ⟨new, heq, fun i hi => (hnew i hi).cons, hpair⟩
    rw [search]
    split
    · exact hstop
    split
    · rename_i isLoad' B known hview
      split
      · rename_i hkind
        subst hkind
        split
        · -- a candidate at this place
          rename_i distance hcompatible
          obtain ⟨hknown, hminus⟩ := isLoadStoreCompatible_eq_some hcompatible
          subst hknown
          have hhere : Candidate T start isLoad' k (J :: rest) ⟨k, distance⟩ :=
            ⟨le_rfl, J, B, by simp, hview, hminus⟩
          split
          · exact ⟨[⟨k, distance⟩], rfl, by simpa using hhere, List.pairwise_singleton ..⟩
          · obtain ⟨new, heq, hnew, hpair⟩ := ih (k + 1) (budget - J.count) cross
              (infos ++ [⟨k, distance⟩]) (reorder || cross)
            refine ⟨⟨k, distance⟩ :: new, by rw [heq]; simp, ?_, ?_⟩
            · intro i hi
              obtain rfl | hi := List.mem_cons.mp hi
              · exact hhere
              · exact (hnew i hi).cons
            · refine List.pairwise_cons.mpr ⟨fun i hi => ?_, hpair⟩
              exact (hnew i hi).1
        · exact hgo cross
      · split
        · exact hgo true
        · exact hstop
    · exact hgo cross

/-- One element further. -/
def Next (elementSize : ℤ) (a b : MergedInfo) : Prop := b.mOffset - a.mOffset = elementSize

theorem consecutive_isChain (elementSize : ℤ) (limit : ℕ) (l : List MergedInfo) :
    (l.take ((consecutive elementSize limit l).1 + 1)).IsChain (Next elementSize) ∧
      (l ≠ [] → (consecutive elementSize limit l).1 + 1 ≤ l.length) := by
  fun_induction consecutive elementSize limit l with
  | case1 limit a b l hne => simp
  | case2 limit a b l heq j ready hrec ih =>
    obtain ⟨hchain, hlen⟩ := ih
    rw [hrec] at hchain hlen
    refine ⟨?_, fun _ => by simpa using hlen (by simp)⟩
    rw [List.take_succ_cons, List.take_succ_cons, List.isChain_cons_cons]
    rw [List.take_succ_cons] at hchain
    exact ⟨not_not.mp heq, hchain⟩
  | case3 limit l hne =>
    refine ⟨?_, fun h => List.length_pos_iff.mpr h⟩
    rcases l with _ | ⟨a, l⟩
    · simp
    · simp

theorem vecLength_le (n : ℕ) : vecLength n ≤ n := by
  unfold vecLength
  split
  · assumption
  split
  · assumption
  split
  · assumption
  · rfl

theorem two_le_vecLength {n : ℕ} (h : 2 ≤ n) : 2 ≤ vecLength n := by
  unfold vecLength
  split
  · omega
  split
  · omega
  split
  · omega
  · exact h

theorem findRun_spec (elementSize : ℤ) (maxVecSize : ℕ) (l : List MergedInfo) :
    findRun elementSize maxVecSize l = [] ∨
      2 ≤ (findRun elementSize maxVecSize l).length ∧
      (findRun elementSize maxVecSize l).Sublist l ∧
      (findRun elementSize maxVecSize l).IsChain (Next elementSize) := by
  induction l with
  | nil => exact Or.inl rfl
  | cons a l ih =>
    obtain ⟨hchain, hlen⟩ := consecutive_isChain elementSize (maxVecSize - 1) (a :: l)
    rw [findRun]
    rcases hc : consecutive elementSize (maxVecSize - 1) (a :: l) with ⟨j, ready⟩
    rw [hc] at hchain hlen
    by_cases hrun : 0 < j ∧ ready = true
    · refine Or.inr ?_
      simp only [if_pos hrun]
      have hle := vecLength_le (j + 1)
      refine ⟨?_, List.take_sublist .., ?_⟩
      · rw [List.length_take, min_eq_left (hle.trans (hlen (by simp)))]
        exact two_le_vecLength (by omega)
      · rw [← min_eq_left hle, ← List.take_take]
        exact hchain.take _
    · simp only [if_neg hrun]
      refine ih.imp_right fun h => ⟨h.1, ?_, h.2.2⟩
      exact h.2.1.trans (List.sublist_cons_self ..)

theorem IsChain.mOffset_eq {elementSize : ℤ} {l : List MergedInfo}
    (h : l.IsChain (Next elementSize)) {n : ℕ} {i : MergedInfo} (hi : l[n]? = some i) :
    i.mOffset = (l.map MergedInfo.mOffset).headD 0 + n * elementSize := by
  induction n generalizing l with
  | zero =>
    rcases l with _ | ⟨a, l⟩
    · simp at hi
    · obtain rfl : a = i := by simpa using hi
      simp
  | succ n ih =>
    rcases l with _ | ⟨a, _ | ⟨b, l⟩⟩
    · simp at hi
    · simp at hi
    · rw [List.isChain_cons_cons] at h
      have hnext : b.mOffset - a.mOffset = elementSize := h.1
      have := ih h.2 (by simpa using hi)
      simp only [List.map_cons, List.headD_cons] at this ⊢
      rw [this]
      rw [← hnext]
      push_cast
      ring

/-- What the pass merges. -/
structure Merge.Spec (T : Target) (m : Merge) (rest : List Insn) : Prop where
  start : ∃ x l, rest = x :: l ∧ x.scalar? = some (m.isLoad, m.first)
  two_le : 2 ≤ m.places.length
  nodup : m.places.Nodup
  candidate : ∀ i ∈ m.merged, i = ⟨0, 0⟩ ∨ Candidate T m.first m.isLoad 0 rest i
  offset : ∀ (n : ℕ) (i : MergedInfo), m.merged[n]? = some i →
    i.mOffset = m.addrOffset + n * m.first.ty.storeSize

theorem findConsecutiveAccess_spec {rest : List Insn} {m : Merge}
    (h : findConsecutiveAccess T rest = some m) : m.Spec T rest := by
  rcases rest with _ | ⟨x, l⟩
  · cases h
  rw [findConsecutiveAccess] at h
  obtain ⟨⟨isLoad, first⟩, hx, h⟩ := Option.bind_eq_some_iff.mp h
  obtain ⟨maxVecSize, -, h⟩ := Option.bind_eq_some_iff.mp h
  simp only at h
  split at h
  swap
  · cases h
  split at h
  · cases h
  rename_i hne
  rw [Option.some_inj] at h
  subst h
  obtain ⟨new, hinfos, hnew, hpair⟩ := search_spec first isLoad maxVecSize l 1 (maxVecSize * 8 + 1)
    false [⟨0, 0⟩] false (T := T)
  rw [hinfos] at hne ⊢
  set merged := findRun first.ty.storeSize maxVecSize (T.sort ([⟨0, 0⟩] ++ new))
  obtain hrun | ⟨htwo, hsub, hchain⟩ :=
    findRun_spec first.ty.storeSize maxVecSize (T.sort ([⟨0, 0⟩] ++ new))
  · exact absurd hrun hne
  have hperm := T.sort_perm ([⟨0, 0⟩] ++ new)
  refine ⟨⟨x, l, rfl, hx⟩, ?_, ?_, ?_, fun n i hi => IsChain.mOffset_eq hchain hi⟩
  · rw [Merge.places, List.length_map]
    exact htwo
  · have hall : (((⟨0, 0⟩ : MergedInfo) :: new).map MergedInfo.mInsn).Nodup := by
      refine List.pairwise_map.mpr ?_
      refine List.pairwise_cons.mpr ⟨fun i hi => ?_, hpair.imp fun h => h.ne⟩
      have := (hnew i hi).1
      show (0 : ℕ) ≠ i.mInsn
      omega
    refine List.Nodup.sublist (hsub.map MergedInfo.mInsn) ?_
    exact (hperm.map MergedInfo.mInsn).nodup_iff.mpr hall
  · intro i hi
    have hmem := hperm.mem_iff.mp (hsub.subset hi)
    obtain rfl | hmem := List.mem_cons.mp hmem
    · exact Or.inl rfl
    · exact Or.inr (hnew i hmem).cons

end Spec

end Llvm.LoadStore
