/-
The reverse map of a `RegisterMap` (`gen_reg_allocation_map.hpp`).

`insert` writes the new offset into the reverse map and leaves the old one, and `erase`
forgets an offset whoever else has it.  So the reverse map is right as long as no register is
moved that its old offset names, and none is erased that shares its offset.

* `step_consistent_iff` — which operation keeps the two maps together.
* **`consistent_iff`** — they are together after each operation of a sequence exactly when
  each of them is such an operation.
-/
import Beignet.Backend.RegisterMaps
import Beignet.Lib.Transition

namespace Backend

namespace RegisterMaps

namespace RegisterMap

def enableReverseMap (m : RegisterMap) : RegisterMap := { m with needReverseMap := true }

/-- The register in the reverse map; the source gives a default register for none. -/
def getReverse (m : RegisterMap) (offset : ℕ) : Option ℕ :=
  if m.needReverseMap then m.reverseMap offset else none

def size (m : RegisterMap) : ℕ :=
  m.physicalOffsets.foldl (fun count offset => if offset != UNMAPPED then count + 1 else count) 0

def clear (m : RegisterMap) : RegisterMap :=
  { m with physicalOffsets := [], reverseMap := fun _ => none }

/-- `RegisterMap()` -/
def new : RegisterMap := ⟨[], fun _ => none, false⟩

/-! ### The forward map -/

theorem get_clear (m : RegisterMap) (reg : ℕ) : m.clear.get reg = UNMAPPED := by
  simp [get, clear]

theorem size_eq_countP (m : RegisterMap) :
    m.size = m.physicalOffsets.countP (· != UNMAPPED) := by
  have h : ∀ (l : List ℕ) (n : ℕ),
      l.foldl (fun count offset => if offset != UNMAPPED then count + 1 else count) n =
        n + l.countP (· != UNMAPPED) := by
    intro l
    induction l with
    | nil => exact fun n => rfl
    | cons offset l ih =>
      intro n
      rw [List.foldl_cons, ih, List.countP_cons]
      split <;> omega
  rw [size, h, Nat.zero_add]

/-- The mapped registers are counted. -/
theorem size_eq_ncard (m : RegisterMap) : m.size = {reg | m.contains reg = true}.ncard := by
  rw [size_eq_countP]
  generalize hl : m.physicalOffsets = l
  have hset : {reg | m.contains reg = true} =
      ↑((Finset.range l.length).filter fun reg => l.getD reg UNMAPPED != UNMAPPED) := by
    ext reg
    simp [contains, hl]
  rw [hset, Set.ncard_coe_finset]
  -- from here on it is about the list alone, seen from its end
  clear hl hset
  induction l using List.reverseRecOn with
  | nil => rfl
  | append_singleton l offset ih =>
    have hfirst : ∀ reg ∈ Finset.range l.length,
        (((l ++ [offset]).getD reg UNMAPPED != UNMAPPED) = true ↔
          (l.getD reg UNMAPPED != UNMAPPED) = true) := by
      intro reg hreg
      rw [List.getD_eq_getElem?_getD, List.getElem?_append_left (Finset.mem_range.mp hreg),
        List.getD_eq_getElem?_getD]
    have hlast : (l ++ [offset]).getD l.length UNMAPPED = offset := by simp
    rw [List.countP_append, ih, List.length_append, List.length_singleton,
      Finset.range_add_one, Finset.filter_insert, Finset.filter_congr hfirst, hlast,
      List.countP_singleton]
    split_ifs
    · rw [Finset.card_insert_of_notMem (by simp)]
    · rfl

/-! ### The two maps -/

/-- What the reverse map names has the offset, and each mapped register's offset has a name. -/
structure Consistent (m : RegisterMap) : Prop where
  enabled : m.needReverseMap = true
  sound : ∀ {offset reg}, m.getReverse offset = some reg → m.get reg = offset
  complete : ∀ {reg}, m.contains reg = true → (m.getReverse (m.get reg)).isSome = true

/-- A register of the source; `0xffffffff` is no register. -/
abbrev Register := Fin 4294967295

/-- `uint32_t` -/
abbrev Offset := Fin 4294967296

inductive Operation where
  | insert (reg : Register) (offset : Offset)
  | erase (reg : Register)
  | clear

def step (m : RegisterMap) : Operation → RegisterMap
  | .insert reg offset => m.insert reg offset
  | .erase reg => m.erase reg
  | .clear => m.clear

/-- No register is moved from an offset that names it, and none is erased that shares its
offset. -/
def Keeps (m : RegisterMap) : Operation → Prop
  | .insert reg offset => m.get reg = offset ∨ m.getReverse (m.get reg) ≠ some ↑reg
  | .erase reg => ∀ r, r ≠ ↑reg → m.contains r = true → m.get r ≠ m.get reg
  | .clear => True

variable {m : RegisterMap}

theorem getReverse_insert (hm : m.needReverseMap = true) (reg offset o : ℕ) :
    (m.insert reg offset).getReverse o = if o = offset then some reg else m.getReverse o := by
  simp only [getReverse, insert, hm, if_true]
  exact Function.update_apply ..

theorem getReverse_erase (hm : m.needReverseMap = true) (reg o : ℕ) :
    (m.erase reg).getReverse o =
      if m.get reg ≠ UNMAPPED ∧ o = m.get reg then none else m.getReverse o := by
  rw [get_eq, erase]
  by_cases hlen : reg < m.physicalOffsets.length
  · rw [if_pos hlen]
    simp only [getReverse, hm, if_true, Bool.true_and]
    generalize m.physicalOffsets.getD reg UNMAPPED = offset
    by_cases hne : offset = UNMAPPED
    · simp [hne]
    · by_cases ho : o = offset
      · simp [hne, ho]
      · simp [hne, ho]
  · rw [if_neg hlen, if_neg ?_]
    rintro ⟨hne, -⟩
    apply hne
    rw [List.getD_eq_getElem?_getD, List.getElem?_eq_none (Nat.le_of_not_lt hlen),
      Option.getD_none]

theorem insert_consistent_iff (hm : m.Consistent) (reg offset : ℕ) :
    (m.insert reg offset).Consistent ↔
      m.get reg = offset ∨ m.getReverse (m.get reg) ≠ some reg := by
  constructor
  · intro h
    by_contra hmoved
    rw [not_or, not_not] at hmoved
    obtain ⟨hne, hnamed⟩ := hmoved
    -- the old offset still names the register
    have hstale : (m.insert reg offset).getReverse (m.get reg) = some reg := by
      rw [getReverse_insert hm.enabled, if_neg hne, hnamed]
    have hget := h.sound hstale
    rw [get_insert, if_pos rfl] at hget
    exact hne hget.symm
  · intro hkeeps
    refine ⟨hm.enabled, ?_, ?_⟩
    · intro o r hr
      rw [getReverse_insert hm.enabled] at hr
      rw [get_insert]
      split_ifs at hr with ho
      · rw [ho, if_pos (Option.some_inj.mp hr).symm]
      · have hget := hm.sound hr
        rw [if_neg ?_, hget]
        rintro rfl
        rw [hget] at hkeeps
        exact hkeeps.elim ho fun hnot => hnot hr
    · intro r hr
      rw [getReverse_insert hm.enabled]
      split_ifs with ho
      · rfl
      · rw [contains_iff] at hr
        rw [get_insert] at hr ho ⊢
        have hne : r ≠ reg := fun h => ho (if_pos h)
        rw [if_neg hne] at hr ⊢
        exact hm.complete ((contains_iff m r).mpr hr)

theorem erase_consistent_iff (hm : m.Consistent) (reg : ℕ) :
    (m.erase reg).Consistent ↔ ∀ r, r ≠ reg → m.contains r = true → m.get r ≠ m.get reg := by
  have henabled : (m.erase reg).needReverseMap = true := by
    rw [erase]
    split
    · exact hm.enabled
    · exact hm.enabled
  constructor
  · intro h r hr hcontains hshared
    have hmapped : m.get r ≠ UNMAPPED := (contains_iff m r).mp hcontains
    have hcontains' : (m.erase reg).contains r = true := by
      rw [contains_iff, get_erase, if_neg hr]
      exact hmapped
    -- the shared offset has lost its name
    have hnamed := h.complete hcontains'
    rw [getReverse_erase hm.enabled, get_erase, if_neg hr,
      if_pos ⟨hshared ▸ hmapped, hshared⟩] at hnamed
    cases hnamed
  · intro hkeeps
    refine ⟨henabled, ?_, ?_⟩
    · intro o r hr
      rw [getReverse_erase hm.enabled] at hr
      split_ifs at hr with ho
      have hget := hm.sound hr
      rw [get_erase]
      split_ifs with hreg
      · -- only a register mapped to no offset is named there
        subst hreg
        by_contra hne
        exact ho ⟨fun hun => hne (hun.symm.trans hget), hget.symm⟩
      · exact hget
    · intro r hr
      rw [contains_iff, get_erase] at hr
      split_ifs at hr with hreg
      · exact absurd rfl hr
      · have hcontains := (contains_iff m r).mpr hr
        rw [get_erase, if_neg hreg, getReverse_erase hm.enabled,
          if_neg fun h => hkeeps r hreg hcontains h.2]
        exact hm.complete hcontains

theorem clear_consistent (hm : m.Consistent) : m.clear.Consistent := by
  refine ⟨hm.enabled, ?_, ?_⟩
  · intro o r hr
    have hnone : m.clear.getReverse o = none := ite_self none
    rw [hnone] at hr
    cases hr
  · intro r hr
    rw [contains_iff, get_clear] at hr
    exact absurd rfl hr

/-- Which operation keeps the two maps together. -/
theorem step_consistent_iff {op : Operation} (hm : m.Consistent) :
    (m.step op).Consistent ↔ m.Keeps op := by
  cases op with
  | insert reg offset => exact insert_consistent_iff hm reg offset
  | erase reg => exact erase_consistent_iff hm reg
  | clear => exact iff_of_true (clear_consistent hm) trivial

/-- The map that the allocator starts with. -/
def start : RegisterMap := new.enableReverseMap

theorem start_consistent : start.Consistent := by
  refine ⟨rfl, ?_, ?_⟩
  · intro o r hr
    cases hr
  · intro r hr
    cases hr

/-- After each operation of a sequence the two maps agree, exactly when no operation moves a
register from an offset that names it or erases one that shares its offset.  The number of
registers and the test for one are always those of the forward map. -/
theorem consistent_iff (ops : List Operation) :
    (∀ k, ((ops.take k).foldl step start).size =
        {reg | ((ops.take k).foldl step start).get reg ≠ UNMAPPED}.ncard ∧
      ∀ reg, ((ops.take k).foldl step start).contains reg = true ↔
        ((ops.take k).foldl step start).get reg ≠ UNMAPPED) ∧
    ((∀ k, ((ops.take k).foldl step start).Consistent) ↔
      ∀ pre op post, ops = pre ++ op :: post → (pre.foldl step start).Keeps op) := by
  constructor
  · intro k
    refine ⟨?_, contains_iff _⟩
    rw [size_eq_ncard]
    simp only [contains_iff]
  · exact Transition.foldl_invariant_iff step_consistent_iff start_consistent

/-- Register 1 moves from 128 to 256 and is still named at 128; then registers 2 and 3 share
512 and 3 goes, and 512 names neither. -/
theorem register_moved_and_erased :
    let moved := [Operation.insert 1 128, .insert 1 256].foldl step start
    let erased := [Operation.insert 2 512, .insert 3 512, .erase 3].foldl step start
    (moved.getReverse 128 = some 1 ∧ moved.get 1 = 256) ∧
      erased.getReverse 512 = none ∧ erased.contains 2 = true ∧ erased.get 2 = 512 := by
  decide

end RegisterMap

end RegisterMaps

end Backend
