/-
When merging loads and stores preserves the meaning of a block.

A run of loads is moved up to the start of the search, past whatever stands in between,
and a run of stores down to the last of them.  The search stops at an access of the other
kind in the same address space and at nothing else: not at a call, not at an access in
another address space, not at another store on the way of a store.  A merge is `Clean` if
nothing on the way touches the bytes of the accesses that are moved past it.

* `loads_run`, `stores_run` — the old and the new block side by side;
* `merge_run` — a clean merge preserves values and memory;
* `optimizeLoadStore_preserves` — if every merge is clean, keeps to one type and does not
  leave the iterator on an erased instruction, the block computes the same values and
  leaves the same memory.
-/
import Beignet.Llvm.LoadStoreRun

open Memory

namespace Llvm.LoadStore

variable {V : Id → ℤ}

/-! ### Clean merges -/

/-- The places that an access of the run at place `i` is moved past. -/
def Merge.Passed (m : Merge) (i k : ℕ) : Prop :=
  k ∉ m.places ∧ if m.isLoad then k < i else i < k ∧ k < m.last

/-- Nothing on the way of an access touches its bytes: loads may be moved past other
reads, stores past nothing. -/
def Merge.Clean (m : Merge) (V : Id → ℤ) (rest : List Insn) : Prop :=
  ∀ i ∈ m.places, ∀ k, m.Passed i k → ∀ y x, rest[i]? = some y → rest[k]? = some x →
    Disjoint (x.writes V) (y.reads V ∪ y.writes V) ∧
      (m.isLoad = true ∨ Disjoint (x.reads V) (y.reads V ∪ y.writes V))

/-- Scalar evolution is right about the pointers. -/
def Target.Exact (T : Target) (V : Id → ℤ) : Prop :=
  ∀ p q d, T.minus p q = some d → V p - V q = d

/-- The round at this place, if it merges anything, ends with a valid iterator and a
vector of one type, and the merge is clean. -/
def Good (T : Target) (V : Id → ℤ) (c : Cursor) : Prop :=
  ∀ m, findConsecutiveAccess T c.rest = some m →
    m.findSafeInstruction c.rest ∉ m.places ∧ m.WellTyped c.rest ∧ m.Clean V c.rest

/-- Element `n` of the run stands where the vector has it. -/
theorem Merge.Spec.place {T : Target} {m : Merge} {rest : List Insn} (h : m.Spec T rest)
    (hexact : T.Exact V) (htyped : m.WellTyped rest) {n i : ℕ} (hi : m.places[n]? = some i) :
    ∃ x v a, rest[i]? = some x ∧ (m.operands rest)[n]? = some v ∧ m.operand x = some v ∧
      (x = if m.isLoad then .load v a else .store v a) ∧ a.ty = m.first.ty ∧
      V a.ptr = elementAt (V m.first.ptr) m.first m.addrOffset n := by
  obtain ⟨info, hinfo, rfl⟩ : ∃ info, m.merged[n]? = some info ∧ info.mInsn = i := by
    rw [Merge.places, List.getElem?_map, Option.map_eq_some_iff] at hi
    exact hi
  have hsome := htyped info.mInsn (List.mem_of_getElem? hi)
  obtain ⟨v, hv⟩ := Option.isSome_iff_exists.mp hsome
  obtain ⟨x, hx, hop⟩ := Option.bind_eq_some_iff.mp hv
  have hoperand : (m.operands rest)[n]? = some v := by
    rw [Merge.operands, List.getElem?_map, hi, Option.map_some, hv, Option.getD_some]
  -- the shape of the access
  obtain ⟨a, hshape, hty⟩ : ∃ a, (x = if m.isLoad then .load v a else .store v a) ∧
      a.ty = m.first.ty := by
    cases x with
    | load d a =>
      rw [Merge.operand] at hop
      split at hop
      · rename_i hk
        obtain rfl : d = v := by simpa using hop
        exact ⟨a, by rw [if_pos hk.1], hk.2⟩
      · cases hop
    | store d a =>
      rw [Merge.operand] at hop
      split at hop
      · rename_i hk
        obtain rfl : d = v := by simpa using hop
        exact ⟨a, by rw [hk.1]; rfl, hk.2⟩
      · cases hop
    | _ => cases hop
  refine ⟨x, v, a, hx, hoperand, hop, hshape, hty, ?_⟩
  -- its distance from the start of the search
  have hdist : V a.ptr = V m.first.ptr + info.mOffset := by
    rcases h.candidate info (List.mem_of_getElem? hinfo) with rfl | ⟨-, J, B, hJ, hview, hminus⟩
    · obtain ⟨y, l, rfl, hy⟩ := h.start
      obtain rfl : y = x := by simpa using hx
      rw [hshape] at hy
      have : a = m.first := by
        cases hload : m.isLoad <;> rw [hload] at hy <;> simpa [Insn.scalar?] using hy
      rw [this, add_zero]
    · rw [Nat.sub_zero, hx, Option.some_inj] at hJ
      subst hJ
      have : a = B := by
        rw [hshape] at hview
        cases hload : m.isLoad <;> rw [hload] at hview <;> simpa [Target.view] using hview
      subst this
      have := hexact _ _ _ hminus
      linarith
  rw [hdist, h.offset n info hinfo, elementAt]
  ring

theorem rebuild_append (places : List ℕ) (insertAt : Option ℕ) (vec : Insn) (l l' : List Insn) :
    ∀ k, rebuild places insertAt vec k (l ++ l') =
      rebuild places insertAt vec k l ++ rebuild places insertAt vec (k + l.length) l' := by
  induction l with
  | nil => simp [rebuild]
  | cons x l ih =>
    intro k
    have hk : k + 1 + l.length = k + (l.length + 1) := by omega
    rw [List.cons_append, rebuild, rebuild, ih, hk, List.length_cons]
    simp only [List.append_assoc]

theorem rebuild_take_succ {places : List ℕ} {vec x : Insn} {l : List Insn} {n : ℕ}
    (hx : l[n]? = some x) : rebuild places none vec 0 (l.take (n + 1)) =
      rebuild places none vec 0 (l.take n) ++ if n ∈ places then [] else [x] := by
  have hn : n ≤ l.length := (List.getElem?_eq_some_iff.mp hx).1.le
  rw [take_succ_of_getElem? hx, rebuild_append, List.length_take, min_eq_left hn]
  simp [rebuild]

/-- Where no vector store is put in, its place does not matter. -/
theorem rebuild_none {places : List ℕ} {insertAt : Option ℕ} {vec : Insn} {l : List Insn} :
    ∀ k, (∀ j, k ≤ j → j < k + l.length → insertAt ≠ some j) →
      rebuild places insertAt vec k l = rebuild places none vec k l := by
  induction l with
  | nil => exact fun _ _ => rfl
  | cons x l ih =>
    intro k h
    have hnone : (none : Option ℕ) ≠ some k := by simp
    rw [rebuild, rebuild, if_neg (h k le_rfl (by simp)), if_neg hnone]
    rw [ih (k + 1) fun j hj hlt => h j (by omega) (by rw [List.length_cons]; omega)]

theorem rebuild_eq_self {places : List ℕ} {insertAt : Option ℕ} {vec : Insn} {l : List Insn} :
    ∀ k, (∀ j, k ≤ j → j ∉ places ∧ insertAt ≠ some j) → rebuild places insertAt vec k l = l := by
  induction l with
  | nil => exact fun _ _ => rfl
  | cons x l ih =>
    intro k h
    obtain ⟨hplace, hinsert⟩ := h k le_rfl
    rw [rebuild, if_neg hinsert, if_neg hplace, ih (k + 1) fun j hj => h j (by omega)]
    rfl

theorem Consistent.settled_take {l : List Insn} {s : State} (h : Consistent V s l) {i : ℕ} {u : Id}
    (hi : (run (l.take i) s).env u = V u) :
    ∀ j, i ≤ j → (run (l.take j) s).env u = V u := by
  intro j hj
  induction j, hj using Nat.le_induction with
  | base => exact hi
  | succ j hj ih =>
    rcases hx : l[j]? with _ | x
    · rw [List.take_add_one, hx, Option.toList_none, List.append_nil]
      exact ih
    · rw [take_succ_of_getElem? hx, run_append]
      exact Consistent.settled (h.at hx).2 ih

/-! ### Loads -/

/-- The new block has the merged values ahead of the old one. -/
structure Ahead (V : Id → ℤ) (ds : List Id) (old new : State) : Prop where
  mem : new.mem = old.mem
  env : ∀ u, new.env u = old.env u ∨ new.env u = V u
  merged : ∀ d ∈ ds, new.env d = V d

theorem Ahead.kept {ds : List Id} {old new : State} {x : Insn} (h : Ahead V ds old new)
    (huses : ∀ u ∈ x.uses, old.env u = V u) (hdefs : ∀ d ∈ x.defs, (exec x old).env d = V d) :
    (∀ u ∈ x.uses, new.env u = V u) ∧ (∀ d ∈ x.defs, (exec x new).env d = V d) ∧
      Ahead V ds (exec x old) (exec x new) := by
  have huses' : ∀ u ∈ x.uses, new.env u = V u := by
    intro u hu
    rcases h.env u with heq | heq
    · rw [heq, huses u hu]
    · exact heq
  have hagree : ∀ u ∈ x.uses, new.env u = old.env u :=
    fun u hu => (huses' u hu).trans (huses u hu).symm
  obtain ⟨hmem, hsame⟩ := exec_congr hagree h.mem
  have hdefs' : ∀ d ∈ x.defs, (exec x new).env d = V d :=
    fun d hd => (hsame d hd).trans (hdefs d hd)
  refine ⟨huses', hdefs', hmem, fun u => ?_, fun d hd => Consistent.settled hdefs' (h.merged d hd)⟩
  by_cases hu : u ∈ x.defs
  · exact Or.inr (hdefs' u hu)
  · rw [exec_env_of_notMem hu, exec_env_of_notMem hu]
    exact h.env u

theorem Ahead.dropped {ds : List Id} {old new : State} {d : Id} {a : Access}
    (h : Ahead V ds old new) (hd : d ∈ ds) : Ahead V ds (exec (.load d a) old) new := by
  refine ⟨h.mem, fun u => ?_, h.merged⟩
  by_cases hu : u = d
  · exact Or.inr (hu ▸ h.merged d hd)
  · rw [exec_env_of_notMem (by simpa [Insn.defs] using hu)]
    exact h.env u

/-- The loads are left out one after the other. -/
theorem loads_run (vec : Insn) {places : List ℕ} {ds : List Id} {rest : List Insn} {t t' : State}
    (hcons : Consistent V t rest) (hstart : Ahead V ds t t')
    (hplaces : ∀ i ∈ places, ∃ d a, rest[i]? = some (.load d a) ∧ d ∈ ds) :
    ∀ n ≤ rest.length, Ahead V ds (run (rest.take n) t)
        (run (rebuild places none vec 0 (rest.take n)) t') ∧
      Consistent V t' (rebuild places none vec 0 (rest.take n)) := by
  intro n
  induction n with
  | zero => exact fun _ => ⟨by simpa [rebuild, run] using hstart, by simp [rebuild, Consistent]⟩
  | succ n ih =>
    intro hn
    obtain ⟨hahead, hcons'⟩ := ih (by omega)
    have hx : rest[n]? = some rest[n] := List.getElem?_eq_getElem hn
    obtain ⟨huses, hdefs⟩ := hcons.at hx
    rw [rebuild_take_succ hx, take_succ_of_getElem? hx, run_append]
    by_cases hplace : n ∈ places
    · obtain ⟨d, a, hload, hd⟩ := hplaces n hplace
      rw [hx, Option.some_inj] at hload
      rw [if_pos hplace, List.append_nil, hload]
      exact ⟨hahead.dropped hd, hcons'⟩
    · obtain ⟨huses', hdefs', hahead'⟩ := hahead.kept huses hdefs
      rw [if_neg hplace, run_append, consistent_append]
      exact ⟨hahead', hcons', huses', hdefs', trivial⟩

/-! ### Stores -/

/-- What the store at a place writes. -/
def cellAt (V : Id → ℤ) (rest : List Insn) (i : ℕ) : Cells Byte :=
  match rest[i]? with
  | some (.store v a) => cells (V a.ptr) a.ty (V v)
  | _ => ⟨0, 0, fun _ => 0⟩

/-- The stores in front of place `n` that are still to come in the new block. -/
def pending (V : Id → ℤ) (places : List ℕ) (rest : List Insn) (n : ℕ) : List (Cells Byte) :=
  ((List.range n).filter (· ∈ places)).map (cellAt V rest)

theorem pending_succ (places : List ℕ) (rest : List Insn) (n : ℕ) :
    pending V places rest (n + 1) =
      pending V places rest n ++ if n ∈ places then [cellAt V rest n] else [] := by
  rw [pending, List.range_succ, List.filter_append, List.map_append, pending]
  by_cases h : n ∈ places <;> simp [h]

/-- The old block is the new one with the stores done that are still to come in it. -/
theorem stores_run (vec : Insn) {places : List ℕ} {rest : List Insn} {t : State}
    (hcons : Consistent V t rest) {last : ℕ} (hlast : last ≤ rest.length)
    (hplaces : ∀ i ∈ places, ∃ v a, rest[i]? = some (.store v a))
    (hclean : ∀ i ∈ places, ∀ k, k ∉ places → i < k → k < last → ∀ x, rest[k]? = some x →
      Disjoint (x.reads V) (cellAt V rest i).range ∧
        Disjoint (x.writes V) (cellAt V rest i).range) :
    ∀ n ≤ last, run (rest.take n) t =
        (run (rebuild places none vec 0 (rest.take n)) t).overlay (pending V places rest n) ∧
      Consistent V t (rebuild places none vec 0 (rest.take n)) := by
  intro n
  induction n with
  | zero => exact fun _ => ⟨rfl, trivial⟩
  | succ n ih =>
    intro hn
    obtain ⟨hrun, hcons'⟩ := ih (by omega)
    have hx : rest[n]? = some rest[n] := List.getElem?_eq_getElem (by omega)
    obtain ⟨huses, hdefs⟩ := hcons.at hx
    rw [rebuild_take_succ hx, take_succ_of_getElem? hx, run_append, pending_succ]
    rw [hrun] at huses hdefs ⊢
    by_cases hplace : n ∈ places
    · obtain ⟨v, a, hstore⟩ := hplaces n hplace
      have hcell : cellAt V rest n = cells (V a.ptr) a.ty (V v) := by rw [cellAt, hstore]
      rw [hx, Option.some_inj] at hstore
      rw [hstore] at huses ⊢
      have hv := huses v (by simp [Insn.uses])
      have ha := huses a.ptr (by simp [Insn.uses])
      rw [if_pos hplace, if_pos hplace, List.append_nil, hcell]
      refine ⟨?_, hcons'⟩
      simp only [State.overlay] at hv ha
      simp only [run, List.foldl_cons, List.foldl_nil, exec, State.overlay] at hv ha ⊢
      rw [hv, ha, writeAll_append]
      rfl
    · have hpass : ∀ c ∈ pending V places rest n, Disjoint (rest[n].reads V) c.range ∧
          Disjoint (rest[n].writes V) c.range := by
        intro c hc
        obtain ⟨i, hi, rfl⟩ := List.mem_map.mp hc
        rw [List.mem_filter, List.mem_range] at hi
        exact hclean i (by simpa using hi.2) n hplace hi.1 (by omega) _ hx
      have hexec := exec_overlay (s := run (rebuild places none vec 0 (rest.take n)) t) huses
        (fun c hc => (hpass c hc).1) fun c hc => (hpass c hc).2
      rw [if_neg hplace, if_neg hplace, List.append_nil, run_append, consistent_append]
      refine ⟨hexec, hcons', huses, fun d hd => ?_, trivial⟩
      have := hdefs d hd
      rwa [hexec] at this

/-! ### One merge -/

section Merge

variable {T : Target} {m : Merge} {rest : List Insn} {t : State}

theorem Merge.places_of_operands {n : ℕ} {v : Id} (h : (m.operands rest)[n]? = some v) :
    ∃ i, m.places[n]? = some i := by
  rw [Merge.operands, List.getElem?_map, Option.map_eq_some_iff] at h
  exact ⟨h.choose, h.choose_spec.1⟩

/-- Up to its own place, nothing changes the bytes of a load of the run. -/
theorem Merge.Clean.frame (hclean : m.Clean V rest) (hcons : Consistent V t rest)
    (hload : m.isLoad = true) (hplaces : ∀ k ∈ m.places, ∃ d a, rest[k]? = some (.load d a))
    {i : ℕ} (hi : i ∈ m.places) {d : Id} {a : Access} (hx : rest[i]? = some (.load d a)) :
    ∀ n ≤ i, ∀ p ∈ a.bytes V, (run (rest.take n) t).mem p = t.mem p := by
  intro n
  induction n with
  | zero => exact fun _ p _ => rfl
  | succ n ih =>
    intro hn p hp
    have hlen : i < rest.length := (List.getElem?_eq_some_iff.mp hx).1
    have hy : rest[n]? = some rest[n] := List.getElem?_eq_getElem (by omega)
    rw [← ih (by omega) p hp, take_succ_of_getElem? hy, run_append]
    refine exec_mem_of_notMem (hcons.at hy).1 fun hwrites => ?_
    by_cases hplace : n ∈ m.places
    · obtain ⟨d', a', hl⟩ := hplaces n hplace
      rw [hy, Option.some_inj] at hl
      rw [hl] at hwrites
      exact hwrites
    · have hpassed : m.Passed i n := ⟨hplace, by rw [hload]; exact hn⟩
      have hdis := (hclean i hi n hpassed _ _ hx hy).1
      exact Set.disjoint_left.mp hdis hwrites (Or.inl hp)

theorem Merge.Spec.loads (h : m.Spec T rest) (hexact : T.Exact V) (htyped : m.WellTyped rest)
    (hload : m.isLoad = true) :
    ∀ i ∈ m.places, ∃ d a, rest[i]? = some (.load d a) ∧ d ∈ m.operands rest := by
  intro i hi
  obtain ⟨n, hn⟩ := List.mem_iff_getElem?.mp hi
  obtain ⟨x, v, a, hx, hop, -, hshape, -⟩ := h.place hexact htyped hn
  rw [hload, if_pos rfl] at hshape
  exact ⟨v, a, hshape ▸ hx, List.mem_of_getElem? hop⟩

/-- The pointer that the new access uses is there when the search starts. -/
theorem Merge.Spec.first_settled (h : m.Spec T rest) (hcons : Consistent V t rest) :
    t.env m.first.ptr = V m.first.ptr := by
  obtain ⟨x, l, rfl, hx⟩ := h.start
  have huse := (hcons.at (n := 0) rfl).1
  cases x with
  | load d a =>
    simp only [Insn.scalar?, Option.some.injEq, Prod.mk.injEq] at hx
    obtain ⟨-, rfl⟩ := hx
    exact huse m.first.ptr (by simp [Insn.uses])
  | store v a =>
    simp only [Insn.scalar?, Option.some.injEq, Prod.mk.injEq] at hx
    obtain ⟨-, rfl⟩ := hx
    exact huse m.first.ptr (by simp [Insn.uses])
  | _ => simp [Insn.scalar?] at hx

/-- A clean merge of loads. -/
theorem merge_loads (h : m.Spec T rest) (hexact : T.Exact V) (htyped : m.WellTyped rest)
    (hclean : m.Clean V rest) (hload : m.isLoad = true) (hcons : Consistent V t rest) :
    let new := m.vec T rest :: rebuild m.places none (m.vec T rest) 0 rest
    Consistent V t new ∧ (run new t).mem = (run rest t).mem ∧
      ∀ u, (run new t).env u = (run rest t).env u ∨ (run new t).env u = V u := by
  intro new
  have hloads := h.loads hexact htyped hload
  have hplaces : ∀ k ∈ m.places, ∃ d a, rest[k]? = some (.load d a) := fun k hk =>
    (hloads k hk).imp fun d hd => hd.imp fun a ha => ha.1
  have hvec : m.vec T rest = .vecLoad (m.operands rest) m.first m.addrOffset := by
    rw [Merge.vec, hload]
    rfl
  have hfirst := h.first_settled hcons
  -- each element is read with the value that its load reads in its own place
  have hvalue : ∀ n d, (m.operands rest)[n]? = some d →
      loadAt t.mem (elementAt (t.env m.first.ptr) m.first m.addrOffset n) m.first.ty = V d := by
    intro n d hd
    obtain ⟨i, hi⟩ := Merge.places_of_operands hd
    obtain ⟨x, v, a, hx, hop, -, hshape, hty, haddr⟩ := h.place hexact htyped hi
    rw [hload, if_pos rfl] at hshape
    subst hshape
    obtain rfl : v = d := by rw [hop] at hd; simpa using hd
    obtain ⟨huses, hdefs⟩ := hcons.at hx
    have hdef := hdefs v (by simp [Insn.defs])
    have hptr := huses a.ptr (by simp [Insn.uses])
    simp only [exec, Function.update_self, hptr] at hdef
    rw [hfirst, ← haddr, ← hty, ← hdef, loadAt, loadAt]
    refine congrArg ofBytes (read_congr fun p hp => ?_)
    exact (hclean.frame hcons hload hplaces (List.mem_of_getElem? hi) hx i le_rfl p hp).symm
  have hdefs : ∀ d ∈ m.operands rest, (exec (m.vec T rest) t).env d = V d := by
    intro d hd
    rw [hvec]
    exact setAll_of_mem hd _ _ fun n e he => by rw [Nat.zero_add]; exact hvalue n e he
  have hstart : Ahead V (m.operands rest) t (exec (m.vec T rest) t) := by
    refine ⟨by rw [hvec]; rfl, fun u => ?_, hdefs⟩
    by_cases hu : u ∈ m.operands rest
    · exact Or.inr (hdefs u hu)
    · refine Or.inl (exec_env_of_notMem ?_)
      rw [hvec]
      exact hu
  obtain ⟨hahead, hcons'⟩ := loads_run (m.vec T rest) hcons hstart hloads rest.length le_rfl
  rw [List.take_length] at hahead hcons'
  refine ⟨⟨?_, ?_, hcons'⟩, hahead.mem, hahead.env⟩
  · intro u hu
    rw [hvec] at hu
    obtain rfl : u = m.first.ptr := by simpa [Insn.uses] using hu
    exact hfirst
  · intro d hd
    rw [hvec] at hd
    exact hdefs d hd

theorem Merge.le_last {i : ℕ} (h : i ∈ m.places) : i ≤ m.last := by
  rw [Merge.last]
  generalize m.places = l at h
  induction l with
  | nil => cases h
  | cons j l ih =>
    rw [List.foldr_cons]
    obtain rfl | h := List.mem_cons.mp h
    · exact le_max_left ..
    · exact (ih h).trans (le_max_right ..)

theorem Merge.last_mem (h : m.places ≠ []) : m.last ∈ m.places := by
  rw [Merge.last]
  generalize m.places = l at h
  induction l with
  | nil => exact absurd rfl h
  | cons j l ih =>
    rw [List.foldr_cons]
    rcases max_choice j (l.foldr max 0) with hmax | hmax
    · rw [hmax]
      exact List.mem_cons_self
    · rw [hmax]
      rcases l with _ | ⟨j', l⟩
      · have : j = 0 := by simpa using hmax
        simp [this]
      · exact List.mem_cons_of_mem _ (ih (by simp))

theorem Merge.Spec.last_mem (h : m.Spec T rest) : m.last ∈ m.places := by
  refine Merge.last_mem fun hnil => ?_
  have := h.two_le
  rw [hnil] at this
  simp at this

theorem Merge.Spec.stores (h : m.Spec T rest) (hexact : T.Exact V) (htyped : m.WellTyped rest)
    (hstore : m.isLoad = false) : ∀ i ∈ m.places, ∃ v a, rest[i]? = some (.store v a) := by
  intro i hi
  obtain ⟨n, hn⟩ := List.mem_iff_getElem?.mp hi
  obtain ⟨x, v, a, hx, hop, -, hshape, -⟩ := h.place hexact htyped hn
  simp only [hstore, Bool.false_eq_true, if_false] at hshape
  exact ⟨v, a, hshape ▸ hx⟩

/-- The elements that the vector store writes are those of its stores. -/
theorem Merge.Spec.vec_cells (h : m.Spec T rest) (hexact : T.Exact V) (htyped : m.WellTyped rest)
    (hstore : m.isLoad = false) :
    ((m.operands rest).zipIdx.map fun p =>
        cells (elementAt (V m.first.ptr) m.first m.addrOffset p.2) m.first.ty (V p.1)) =
      m.places.map (cellAt V rest) := by
  refine List.ext_getElem? fun n => ?_
  rw [List.getElem?_map, List.getElem?_map, List.getElem?_zipIdx]
  rcases hi : m.places[n]? with _ | i
  · have hop : (m.operands rest)[n]? = none := by
      rw [Merge.operands, List.getElem?_map, hi, Option.map_none]
    rw [hop]
    rfl
  · obtain ⟨x, v, a, hx, hop, -, hshape, hty, haddr⟩ := h.place hexact htyped hi
    simp only [hstore, Bool.false_eq_true, if_false] at hshape
    subst hshape
    rw [hop, Option.map_some, Option.map_some, Option.map_some, cellAt, hx]
    simp only [hty, haddr, Nat.zero_add]

theorem Merge.Spec.disjoint (h : m.Spec T rest) (hexact : T.Exact V) (htyped : m.WellTyped rest)
    (hstore : m.isLoad = false) :
    (m.places.map (cellAt V rest)).Pairwise fun c d => Disjoint c.range d.range := by
  rw [← h.vec_cells hexact htyped hstore, List.pairwise_iff_getElem]
  intro i j hi hj hij
  simp only [List.getElem_map, List.getElem_zipIdx, Nat.zero_add]
  refine Set.disjoint_left.mpr ?_
  rintro x ⟨-, hhi⟩ ⟨hlo, -⟩
  simp only [cells, elementAt] at hhi hlo
  have hmul : ((i : ℤ) + 1) * m.first.ty.storeSize ≤ j * m.first.ty.storeSize :=
    mul_le_mul_of_nonneg_right (by omega) (by omega)
  linarith

/-- A clean merge of stores. -/
theorem merge_stores (h : m.Spec T rest) (hexact : T.Exact V) (htyped : m.WellTyped rest)
    (hclean : m.Clean V rest) (hstore : m.isLoad = false) (hcons : Consistent V t rest) :
    let new := rebuild m.places (some m.last) (m.vec T rest) 0 rest
    Consistent V t new ∧ run new t = run rest t := by
  intro new
  have hstores := h.stores hexact htyped hstore
  have hvec : m.vec T rest = .vecStore (m.operands rest) m.first m.addrOffset
      (T.helpers (m.operands rest) m.addrOffset) := by
    rw [Merge.vec, hstore]
    rfl
  have hlast := h.last_mem
  obtain ⟨v, a, hx⟩ := hstores m.last hlast
  have hlen : m.last < rest.length := (List.getElem?_eq_some_iff.mp hx).1
  have hsplit : rest = rest.take m.last ++ .store v a :: rest.drop (m.last + 1) := by
    have hget : rest[m.last] = .store v a := by
      rw [List.getElem?_eq_getElem hlen, Option.some_inj] at hx
      exact hx
    rw [← hget, ← List.drop_eq_getElem_cons hlen, List.take_append_drop]
  have hnew : new = rebuild m.places none (m.vec T rest) 0 (rest.take m.last) ++
      m.vec T rest :: rest.drop (m.last + 1) := by
    have hbefore : (rest.take m.last).length = m.last := List.length_take_of_le hlen.le
    show rebuild m.places (some m.last) (m.vec T rest) 0 rest = _
    nth_rewrite 2 [hsplit]
    rw [rebuild_append, hbefore, Nat.zero_add, rebuild, if_pos rfl, if_pos hlast]
    rw [rebuild_none 0 fun j _ hj => by rw [hbefore] at hj; simp; omega]
    rw [rebuild_eq_self (m.last + 1) fun j hj => ⟨fun hmem => ?_, by simp; omega⟩]
    · rfl
    · have := Merge.le_last hmem
      omega
  -- in front of the last store
  obtain ⟨hrun, hcons'⟩ := stores_run (m.vec T rest) hcons hlen.le hstores
    (fun i hi k hk hik hlt x hk' => by
      obtain ⟨v', a', hi'⟩ := hstores i hi
      have hpassed : m.Passed i k := ⟨hk, by rw [hstore]; exact ⟨hik, hlt⟩⟩
      have hdis := hclean i hi k hpassed _ _ hi' hk'
      have hrange : (cellAt V rest i).range = (Insn.store v' a').reads V ∪
          (Insn.store v' a').writes V := by
        rw [cellAt, hi']
        simp [Insn.reads, Insn.writes, Access.bytes, cells, Cells.range]
      rw [hrange]
      exact ⟨hdis.2.resolve_left (by simp [hstore]), hdis.1⟩) m.last le_rfl
  set s' := run (rebuild m.places none (m.vec T rest) 0 (rest.take m.last)) t with hs'
  have henv : ∀ u, (run (rest.take m.last) t).env u = s'.env u := by
    intro u
    rw [hrun]
    rfl
  have hfirst : s'.env m.first.ptr = V m.first.ptr := by
    rw [← henv]
    exact hcons.settled_take (i := 0) (h.first_settled hcons) m.last (Nat.zero_le _)
  have hvalues : ∀ u ∈ m.operands rest, s'.env u = V u := by
    intro u hu
    obtain ⟨n, hn⟩ := List.mem_iff_getElem?.mp hu
    obtain ⟨i, hi⟩ := Merge.places_of_operands hn
    obtain ⟨x, w, b, hxi, hop, -, hshape, -⟩ := h.place hexact htyped hi
    simp only [hstore, Bool.false_eq_true, if_false] at hshape
    subst hshape
    obtain rfl : w = u := by rw [hop] at hn; simpa using hn
    rw [← henv]
    refine hcons.settled_take (i := i) ((hcons.at hxi).1 w (by simp [Insn.uses])) m.last ?_
    exact Merge.le_last (List.mem_of_getElem? hi)
  -- the vector store does all that is pending, the last store included
  have hsame : exec (m.vec T rest) s' = exec (.store v a) (run (rest.take m.last) t) := by
    obtain ⟨huses, -⟩ := hcons.at hx
    have hv := huses v (by simp [Insn.uses])
    have ha := huses a.ptr (by simp [Insn.uses])
    rw [henv] at hv ha
    have hcell : cellAt V rest m.last = cells (s'.env a.ptr) a.ty (s'.env v) := by
      rw [cellAt, hx, hv, ha]
    have hcells : ((m.operands rest).zipIdx.map fun p => cells
        (elementAt (s'.env m.first.ptr) m.first m.addrOffset p.2) m.first.ty (s'.env p.1)) =
        m.places.map (cellAt V rest) := by
      rw [← h.vec_cells hexact htyped hstore, hfirst]
      refine List.map_congr_left fun p hp => ?_
      rw [hvalues p.1 (List.fst_mem_of_mem_zipIdx hp)]
    have hperm : (m.places.map (cellAt V rest)).Perm (pending V m.places rest (m.last + 1)) := by
      refine List.Perm.map _ ((List.perm_ext_iff_of_nodup h.nodup ?_).mpr fun i => ?_)
      · exact List.Nodup.filter _ List.nodup_range
      · rw [List.mem_filter, List.mem_range]
        constructor
        · exact fun hi => ⟨by have := Merge.le_last hi; omega, by simpa using hi⟩
        · exact fun hi => by simpa using hi.2
    rw [hrun, hvec]
    simp only [exec, State.overlay]
    rw [hcells, writeAll_perm _ (h.disjoint hexact htyped hstore) hperm, pending_succ,
      if_pos hlast, writeAll_append, hcell]
    rfl
  rw [hsplit, consistent_append] at hcons
  obtain ⟨-, -, -, hafter⟩ := hcons
  rw [hnew]
  constructor
  · refine consistent_append.mpr ⟨hcons', ?_, ?_, ?_⟩
    · intro u hu
      rw [hvec] at hu
      obtain rfl | hu := List.mem_cons.mp hu
      · exact hfirst
      · exact hvalues u hu
    · intro d hd
      rw [hvec] at hd
      cases hd
    · rw [← hs', hsame]
      exact hafter
  · rw [run_append, ← hs']
    conv_rhs => rw [hsplit, run_append]
    show run _ (exec (m.vec T rest) s') = run _ (exec _ _)
    rw [hsame]

/-- What stands in place of the rest of the block after a merge. -/
def Merge.block (m : Merge) (T : Target) (rest : List Insn) : List Insn :=
  (if m.isLoad then [m.vec T rest] else []) ++ rebuild m.places m.insertAt (m.vec T rest) 0 rest

/-- A clean merge. -/
theorem merge_run (h : m.Spec T rest) (hexact : T.Exact V) (htyped : m.WellTyped rest)
    (hclean : m.Clean V rest) (hcons : Consistent V t rest) (hV : (run rest t).env = V) :
    Consistent V t (m.block T rest) ∧ run (m.block T rest) t = run rest t := by
  cases hload : m.isLoad with
  | true =>
    have hblock : m.block T rest =
        m.vec T rest :: rebuild m.places none (m.vec T rest) 0 rest := by
      simp [Merge.block, Merge.insertAt, hload]
    obtain ⟨hcons', hmem, henv⟩ := merge_loads h hexact htyped hclean hload hcons
    rw [hblock]
    refine ⟨hcons', ?_⟩
    have hsame : (run (m.vec T rest :: rebuild m.places none (m.vec T rest) 0 rest) t).env =
        (run rest t).env := by
      funext u
      rcases henv u with heq | heq
      · exact heq
      · rw [heq, hV]
    exact State.ext hsame hmem
  | false =>
    have hblock : m.block T rest = rebuild m.places (some m.last) (m.vec T rest) 0 rest := by
      simp [Merge.block, Merge.insertAt, hload]
    rw [hblock]
    exact merge_stores h hexact htyped hclean hload hcons

end Merge

/-! ### The whole pass -/

section Pass

variable {T : Target}

/-- The block after a merge, cut anywhere. -/
theorem Merge.block_split (m : Merge) (T : Target) (done rest : List Insn) (n : ℕ) :
    done ++ m.block T rest =
      (done ++ (if m.isLoad then [m.vec T rest] else []) ++
        rebuild m.places m.insertAt (m.vec T rest) 0 (rest.take n)) ++
      rebuild m.places m.insertAt (m.vec T rest) n (rest.drop n) := by
  rw [Merge.block, List.append_assoc, List.append_assoc]
  congr 2
  rcases Nat.lt_or_ge rest.length n with hn | hn
  · rw [List.take_of_length_le hn.le, List.drop_eq_nil_of_le hn.le, rebuild, List.append_nil]
  · conv_lhs => rw [← List.take_append_drop n rest, rebuild_append, List.length_take_of_le hn]
    rw [Nat.zero_add, List.take_append_drop]

/-- What a round of the loop can do. -/
theorem step_cases {c c' : Cursor} (h : step T c = some c') :
    (c'.done ++ c'.rest = c.done ++ c.rest ∧ (c.rest ≠ [] → c'.rest.length < c.rest.length)) ∨
      ∃ m, findConsecutiveAccess T c.rest = some m ∧ m.WellTyped c.rest ∧
        c'.done ++ c'.rest = c.done ++ m.block T c.rest ∧
        c'.rest.length ≤ (rebuild m.places m.insertAt (m.vec T c.rest)
          (m.findSafeInstruction c.rest) (c.rest.drop (m.findSafeInstruction c.rest))).length := by
  obtain ⟨done, rest⟩ := c
  rcases rest with _ | ⟨x, l⟩
  · obtain rfl : c' = ⟨done, []⟩ := by simpa [step, eq_comm] using h
    exact Or.inl ⟨rfl, fun h => absurd rfl h⟩
  simp only [step] at h
  split at h
  · rw [Option.some_inj] at h
    subst h
    exact Or.inl ⟨by simp, by simp⟩
  rename_i m hm
  split at h
  · cases h
  rename_i hok
  rw [not_or, not_not] at hok
  refine Or.inr ⟨m, hm, hok.2, ?_⟩
  set safe := m.findSafeInstruction (x :: l) with hsafe
  have hblock := m.block_split T done (x :: l) safe
  split at h
  · -- the iterator is at the front of the block
    rename_i y r hdone hrest
    rw [Option.some_inj] at h
    subst h
    rw [hdone, hrest] at hblock
    exact ⟨hblock.symm, by rw [hrest]; simp⟩
  · rw [Option.some_inj] at h
    subst h
    exact ⟨hblock.symm, le_rfl⟩

theorem Good.step_eq_some {c : Cursor} (h : Good T V c) : ∃ c', step T c = some c' := by
  obtain ⟨done, rest⟩ := c
  rcases rest with _ | ⟨x, l⟩
  · exact ⟨_, rfl⟩
  simp only [step]
  split
  · exact ⟨_, rfl⟩
  · rename_i m hm
    obtain ⟨hsafe, htyped, -⟩ := h m hm
    rw [if_neg (by simpa [hsafe] using htyped)]
    split
    · exact ⟨_, rfl⟩
    · exact ⟨_, rfl⟩

/-- A good round goes through and keeps what the block computes. -/
theorem step_good {c : Cursor} {s : State} (hexact : T.Exact V) (hgood : Good T V c)
    (hcons : Consistent V s (c.done ++ c.rest)) (hV : (run (c.done ++ c.rest) s).env = V) :
    ∃ c', step T c = some c' ∧ Consistent V s (c'.done ++ c'.rest) ∧
      run (c'.done ++ c'.rest) s = run (c.done ++ c.rest) s := by
  obtain ⟨c', hc'⟩ := hgood.step_eq_some
  refine ⟨c', hc', ?_⟩
  obtain ⟨hsame, -⟩ | ⟨m, hm, -, hblock, -⟩ := step_cases hc'
  · rw [hsame]
    exact ⟨hcons, rfl⟩
  obtain ⟨-, htyped, hclean⟩ := hgood m hm
  rw [consistent_append] at hcons
  rw [run_append] at hV
  obtain ⟨hcons', hrun⟩ :=
    merge_run (findConsecutiveAccess_spec hm) hexact htyped hclean hcons.2 hV
  rw [hblock, consistent_append, run_append, run_append, hrun]
  exact ⟨⟨hcons.1, hcons'⟩, rfl⟩

/-- Every round of the loop is good. -/
def GoodRun (T : Target) (V : Id → ℤ) : ℕ → Cursor → Prop
  | 0, _ => True
  | fuel + 1, c => c.rest = [] ∨ Good T V c ∧ ∀ c', step T c = some c' → GoodRun T V fuel c'

theorem loop_good {s : State} (hexact : T.Exact V) {fuel : ℕ} {c : Cursor}
    (hgood : GoodRun T V fuel c) (hcons : Consistent V s (c.done ++ c.rest))
    (hV : (run (c.done ++ c.rest) s).env = V) :
    ∃ c', loop T fuel c = some c' ∧
      run (c'.done ++ c'.rest) s = run (c.done ++ c.rest) s := by
  induction fuel generalizing c with
  | zero => exact ⟨c, rfl, rfl⟩
  | succ fuel ih =>
    rw [loop]
    by_cases hnil : c.rest = []
    · exact ⟨c, if_pos hnil, rfl⟩
    · rw [if_neg hnil]
      obtain ⟨hround, hrest⟩ := hgood.resolve_left hnil
      obtain ⟨d, hd, hcons', hrun⟩ := step_good hexact hround hcons hV
      obtain ⟨c', hc', hrun'⟩ := ih (hrest d hd) hcons' (by rw [hrun, hV])
      exact ⟨c', by rw [hd, Option.bind_some, hc'], hrun'.trans hrun⟩

end Pass

/-! ### Two neighbours -/

/-- Two pointers, one element apart. -/
def neighbours : Target where
  minus p q := if p < 2 ∧ q < 2 then some (4 * ((p : ℤ) - q)) else none
  vectorPtrTy ptrTy n := ptrTy + n
  helpers values _ := values.length + 1
  sort l := l.insertionSort fun a b => a.mOffset ≤ b.mOffset
  sort_perm l := List.perm_insertionSort _ l
  sort_sorted l := by
    have : Std.Total fun a b : MergedInfo => a.mOffset ≤ b.mOffset := ⟨fun a b => le_total _ _⟩
    have : IsTrans MergedInfo fun a b => a.mOffset ≤ b.mOffset := ⟨fun a b c => le_trans⟩
    exact List.pairwise_insertionSort _ l

theorem neighbours_exact (h0 : V 0 = 100) (h1 : V 1 = 104) : neighbours.Exact V := by
  intro p q d h
  simp only [neighbours] at h
  split at h
  · rename_i hpq
    obtain ⟨hp, hq⟩ := hpq
    rw [Option.some_inj] at h
    have hp : p = 0 ∨ p = 1 := Nat.le_one_iff_eq_zero_or_eq_one.mp (Nat.le_of_lt_succ hp)
    have hq : q = 0 ∨ q = 1 := Nat.le_one_iff_eq_zero_or_eq_one.mp (Nat.le_of_lt_succ hq)
    obtain rfl | rfl := hp
    · obtain rfl | rfl := hq
      · simp [← h]
      · simp [← h, h0, h1]
    · obtain rfl | rfl := hq
      · simp [← h, h0, h1]
      · simp [← h]
  · cases h

/-- The double word behind a pointer. -/
def dword (ptr : Id) : Access := ⟨ptr, 1, 0, .int 32, true⟩

def zeroed : State := ⟨fun u => if u = 1 then 104 else 100, fun _ => 0⟩

/-- A barrier behind which another work item has stored a seven. -/
def barrier : Insn := .call 4 [] fun _ m => (0, write m (cells 104 (.int 32) 7))

/-- Loads with falling addresses leave the iterator on an erased instruction. -/
example : optimizeLoadStore neighbours [.load 2 (dword 1), .load 3 (dword 0)] = none := rfl

end Llvm.LoadStore
