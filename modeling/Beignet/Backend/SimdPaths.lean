/-
The paths of the lanes of a thread.

A thread runs the code that is selected for the labels and branches of a function.  While it is at
the label of block `i`, each active lane is about to go on with a block `n`; its block IP is the
label of `n`, or any label up to that of `i` when `n` is `i` itself.  So the comparison at the label
enables just the lanes whose turn it is, and the join points skip no block that a lane waits for.

Flag bits of disabled lanes can only send the thread back to the head of a loop, and only after a
block in which some lane got ahead.

* `goto_block`, `goto_endif` — where the jumps lead;
* `Inv` — the state at the label of a block;
* `Inv.next` — from one label to the next one;
* **`lanes_follow_paths`** — each lane executes the blocks of its path, and the thread ends when all
  paths do.
-/
import Beignet.Backend.JoinPoints

namespace Backend

namespace Linearize

variable {F : Layout}

/-! ### The code of a block -/

/-- The code from the label of a block on. -/
def codeFrom (F : Layout) (i : ℕ) : List Insn :=
  (List.range' i (F.bottom + 1 - i)).flatMap (emitBlock F)

/-- The jump behind the label. -/
def skip (F : Layout) (i : ℕ) : List Insn :=
  match labelJIP F i with
  | some jip => if jip ≠ F.label (i + 1) || endsInJump F i then [.JMPI .noneEnabled jip] else []
  | none => []

/-- The new block IPs. -/
def moves (F : Layout) (i : ℕ) : List Insn :=
  match F.last i with
  | .fallThrough => []
  | .bra dst predicated =>
    if F.label dst ≤ F.label i then
      if predicated then [.MOV false (F.label (i + 1)), .MOV true (F.label dst)]
      else [.MOV false (F.label dst)]
    else [.MOV predicated (F.label dst)]

/-- The jump behind the `ENDIF`. -/
def exit (F : Layout) (i : ℕ) : List Insn :=
  match F.last i with
  | .fallThrough => []
  | .bra dst predicated =>
    if F.label dst ≤ F.label i then
      [.JMPI (if predicated then .anyTaken else .always) (braJIP F i (F.label dst))]
    else if predicated || F.label (i + 1) = braJIP F i (F.label dst) then []
    else [.JMPI .always (braJIP F i (F.label dst))]

/-- The code of a block up to its `ENDIF`. -/
def front (F : Layout) (i : ℕ) : List Insn :=
  .LABEL (.block (F.label i)) :: .CMP (F.label i) ::
    (skip F i ++ .IF (.endif i) :: .body i :: moves F i)

theorem emitBlock_eq {i : ℕ} (hi : i < F.bottom) :
    emitBlock F i = front F i ++ .LABEL (.endif i) :: .ENDIF :: exit F i := by
  have hne : i ≠ F.bottom := hi.ne
  have hlast : emitLast F i = moves F i ++ .LABEL (.endif i) :: .ENDIF :: exit F i := by
    rw [emitLast, if_neg hne, moves, exit]
    cases F.last i with
    | fallThrough => rfl
    | bra dst predicated =>
      simp only [emitBackwardBranch, emitForwardBranch, emitENDIF]
      cases predicated
      all_goals
        split_ifs <;> simp_all
  have hskip : ∀ rest, emitLabel F i ++ rest = Insn.LABEL (.block (F.label i)) ::
      .CMP (F.label i) :: (skip F i ++ Insn.IF (.endif i) :: rest) := by
    intro rest
    rw [emitLabel, if_neg hne, skip]
    cases labelJIP F i with
    | none => rfl
    | some jip => simp
  rw [emitBlock, hskip, hlast, front]
  simp

theorem emitBlock_bottom :
    emitBlock F F.bottom = [.LABEL (.block (F.label F.bottom)), .body F.bottom, .EOT] := by
  rw [emitBlock, emitLabel, if_pos rfl, emitLast, if_pos rfl]
  rfl

theorem codeFrom_eq {i : ℕ} (hi : i ≤ F.bottom) :
    codeFrom F i = emitBlock F i ++ codeFrom F (i + 1) := by
  have hlen : F.bottom + 1 - i = (F.bottom + 1 - (i + 1)) + 1 := by omega
  rw [codeFrom, hlen, List.range'_succ, List.flatMap_cons]
  rfl

theorem codeFrom_zero : codeFrom F 0 = code F := by
  rw [codeFrom, code, List.range_eq_range']
  rfl

theorem codeFrom_bottom : codeFrom F F.bottom = emitBlock F F.bottom := by
  rw [codeFrom_eq le_rfl, codeFrom, Nat.sub_self]
  exact List.append_nil _

/-! ### Where the jumps lead -/

theorem label_mem_front {i : ℕ} {l : CodeLabel} (h : .LABEL l ∈ front F i) :
    l = .block (F.label i) := by
  have hskip : Insn.LABEL l ∉ skip F i := by
    rw [skip]
    split
    · split_ifs <;> simp
    · simp
  have hmoves : Insn.LABEL l ∉ moves F i := by
    rw [moves]
    split
    · simp
    · split_ifs <;> simp
  simpa [front, hskip, hmoves] using h

/-- The labels of the code of a block. -/
theorem label_mem_emitBlock {i : ℕ} (hi : i < F.bottom) {l : CodeLabel}
    (h : .LABEL l ∈ emitBlock F i) : l = .block (F.label i) ∨ l = .endif i := by
  have hexit : Insn.LABEL l ∉ exit F i := by
    rw [exit]
    split
    · simp
    · split_ifs <;> simp
  rw [emitBlock_eq hi, List.mem_append] at h
  obtain hfront | hback := h
  · exact .inl (label_mem_front hfront)
  · exact .inr (by simpa [hexit] using hback)

theorem goto_eq {l : CodeLabel} {before rest : List Insn}
    (hcode : code F = before ++ .LABEL l :: rest) (hbefore : .LABEL l ∉ before) :
    goto F l = .LABEL l :: rest := by
  have hall : ∀ insn ∈ before, decide (insn ≠ .LABEL l) = true := by
    intro insn hmem
    rw [decide_eq_true_iff]
    rintro rfl
    exact hbefore hmem
  rw [goto, hcode, List.dropWhile_append_of_pos hall]
  simp

/-- The code of the blocks before one. -/
def codeBefore (F : Layout) (j : ℕ) : List Insn := (List.range j).flatMap (emitBlock F)

theorem code_eq {j : ℕ} (hj : j ≤ F.bottom) : code F = codeBefore F j ++ codeFrom F j := by
  have hsplit : List.range (F.bottom + 1) = List.range j ++ List.range' j (F.bottom + 1 - j) := by
    have happend := List.range'_append_1 (s := 0) (m := j) (n := F.bottom + 1 - j)
    rw [Nat.zero_add, Nat.add_sub_cancel' (by omega)] at happend
    rw [List.range_eq_range', List.range_eq_range', happend]
  rw [code, hsplit, List.flatMap_append]
  rfl

theorem label_mem_codeBefore {j : ℕ} (hj : j ≤ F.bottom) {l : CodeLabel}
    (h : .LABEL l ∈ codeBefore F j) : ∃ k < j, l = .block (F.label k) ∨ l = .endif k := by
  obtain ⟨k, hk, hmem⟩ := List.mem_flatMap.mp h
  rw [List.mem_range] at hk
  exact ⟨k, hk, label_mem_emitBlock (by omega) hmem⟩

theorem exists_codeFrom {j : ℕ} (hj : j ≤ F.bottom) :
    ∃ rest, codeFrom F j = .LABEL (.block (F.label j)) :: rest := by
  obtain rfl | hlt := hj.eq_or_lt
  · rw [codeFrom_bottom, emitBlock_bottom]
    exact ⟨_, rfl⟩
  · rw [codeFrom_eq hj, emitBlock_eq hlt]
    exact ⟨_, rfl⟩

theorem goto_block {j : ℕ} (hj : j ≤ F.bottom) :
    goto F (.block (F.label j)) = codeFrom F j := by
  obtain ⟨rest, hrest⟩ := exists_codeFrom hj
  rw [hrest]
  refine goto_eq (hrest ▸ code_eq hj) fun hmem => ?_
  obtain ⟨k, hk, heq | heq⟩ := label_mem_codeBefore hj hmem
  · have := label_inj.mp (CodeLabel.block.inj heq)
    omega
  · cases heq

theorem goto_endif {j : ℕ} (hj : j < F.bottom) :
    goto F (.endif j) = .LABEL (.endif j) :: .ENDIF :: (exit F j ++ codeFrom F (j + 1)) := by
  have hcode := code_eq hj.le
  rw [codeFrom_eq hj.le, emitBlock_eq hj, List.append_assoc, ← List.append_assoc] at hcode
  refine goto_eq hcode fun hmem => ?_
  obtain hmem | hmem := List.mem_append.mp hmem
  · obtain ⟨k, hk, heq | heq⟩ := label_mem_codeBefore hj.le hmem
    · cases heq
    · have := CodeLabel.endif.inj heq
      omega
  · cases label_mem_front hmem

/-! ### Runs -/

section Thread

variable {W : ℕ} {D : Launch W}

/-- The thread comes from one state to another. -/
def Runs (F : Layout) (D : Launch W) (s s' : Thread W) : Prop := ∃ k, (step F D)^[k] s = s'

theorem Runs.refl (s : Thread W) : Runs F D s s := ⟨0, rfl⟩

theorem Runs.trans {s t u : Thread W} (hst : Runs F D s t) (htu : Runs F D t u) :
    Runs F D s u := by
  obtain ⟨k, rfl⟩ := hst
  obtain ⟨n, rfl⟩ := htu
  exact ⟨n + k, Function.iterate_add_apply ..⟩

theorem Runs.of_step {s s' : Thread W} (h : Runs F D (step F D s) s') : Runs F D s s' :=
  Runs.trans ⟨1, rfl⟩ h

variable {s : Thread W} {rest : List Insn}

theorem step_label {l : CodeLabel} (h : s.rest = .LABEL l :: rest) :
    step F D s = { s with rest := rest } := by
  rw [step, h]

theorem step_cmp {label : ℕ} (h : s.rest = .CMP label :: rest) :
    step F D s = { s with rest := rest, flag := fun lane => s.blockIP lane ≤ label } := by
  rw [step, h]

theorem step_jmpi {predicate : JumpPredicate} {jip : ℕ} (h : s.rest = .JMPI predicate jip :: rest) :
    step F D s = { s with rest := if predicate.holds s then goto F (.block jip) else rest } := by
  rw [step, h]

theorem step_if {l : CodeLabel} (h : s.rest = .IF l :: rest) :
    step F D s = { s with
      rest := if ∃ lane, (D.active lane && s.flag lane) = true then rest else goto F l
      mask := fun lane => D.active lane && s.flag lane } := by
  rw [step, h]

theorem step_body {i : ℕ} (h : s.rest = .body i :: rest) :
    step F D s = { s with
      rest := rest
      taken := fun lane =>
        if s.mask lane then D.outcome lane (s.trace lane).length else D.stale s.clock lane
      trace := fun lane => if s.mask lane then s.trace lane ++ [i] else s.trace lane
      clock := s.clock + 1 } := by
  rw [step, h]

theorem step_mov {predicated : Bool} {label : ℕ} (h : s.rest = .MOV predicated label :: rest) :
    step F D s = { s with
      rest := rest
      blockIP := fun lane =>
        if s.mask lane && (!predicated || s.taken lane) then label else s.blockIP lane } := by
  rw [step, h]

theorem step_endif (h : s.rest = .ENDIF :: rest) :
    step F D s = { s with rest := rest, mask := D.active } := by
  rw [step, h]

/-- The block IP of an enabled lane behind a block. -/
def newIP (F : Layout) (i old : ℕ) (taken : Bool) : ℕ :=
  match F.last i with
  | .fallThrough => old
  | .bra dst predicated =>
    if !predicated || taken then F.label dst
    else if F.label dst ≤ F.label i then F.label (i + 1) else old

theorem runs_moves {i : ℕ} (h : s.rest = moves F i ++ rest) :
    Runs F D s { s with
      rest := rest
      blockIP := fun lane =>
        if s.mask lane then newIP F i (s.blockIP lane) (s.taken lane) else s.blockIP lane } := by
  rw [moves] at h
  cases hlast : F.last i with
  | fallThrough =>
    rw [hlast] at h
    have hsame : ∀ lane, (if s.mask lane then newIP F i (s.blockIP lane) (s.taken lane)
        else s.blockIP lane) = s.blockIP lane := by
      intro lane
      simp only [newIP, hlast, ite_self]
    refine ⟨0, ?_⟩
    simp only [hsame]
    exact congrArg (fun r => { s with rest := r }) h
  | bra dst predicated =>
    rw [hlast] at h
    have hnew : ∀ lane, newIP F i (s.blockIP lane) (s.taken lane) =
        if !predicated || s.taken lane then F.label dst
        else if F.label dst ≤ F.label i then F.label (i + 1) else s.blockIP lane := by
      intro lane
      simp only [newIP, hlast]
    simp only [hnew]
    dsimp only at h
    split_ifs at h with hback hpred
    · -- the first `MOV` is overwritten in the lanes that take the branch
      refine .of_step (.of_step ⟨0, ?_⟩)
      rw [step_mov h, step_mov rfl]
      simp only [Function.iterate_zero, id_eq, Thread.mk.injEq, and_true]
      refine ⟨rfl, ?_⟩
      funext lane
      cases s.mask lane <;> cases s.taken lane <;> simp [hback, hpred]
    · refine .of_step ⟨0, ?_⟩
      rw [step_mov h]
      simp only [Function.iterate_zero, id_eq, Thread.mk.injEq, and_true]
      refine ⟨rfl, ?_⟩
      funext lane
      cases s.mask lane <;> simp [hpred]
    · refine .of_step ⟨0, ?_⟩
      rw [step_mov h]
      simp only [Function.iterate_zero, id_eq, Thread.mk.injEq, and_true]
      refine ⟨rfl, ?_⟩
      funext lane
      cases s.mask lane <;> simp [hback]

/-! ### One block -/

/-- The code from the end of the `IF` of a block on. -/
def behind (F : Layout) (i : ℕ) : List Insn :=
  .LABEL (.endif i) :: .ENDIF :: (exit F i ++ codeFrom F (i + 1))

theorem codeFrom_front {i : ℕ} (hi : i < F.bottom) :
    codeFrom F i = .LABEL (.block (F.label i)) :: .CMP (F.label i) ::
      (skip F i ++ .IF (.endif i) :: .body i :: (moves F i ++ behind F i)) := by
  rw [codeFrom_eq hi.le, emitBlock_eq hi, front, behind]
  simp only [List.cons_append, List.append_assoc]

theorem runs_head {i : ℕ} (h : s.rest = .LABEL (.block (F.label i)) :: .CMP (F.label i) :: rest) :
    Runs F D (step F D s)
      { s with rest := rest, flag := fun lane => s.blockIP lane ≤ F.label i } := by
  refine .of_step ⟨0, ?_⟩
  rw [step_label h, step_cmp rfl]
  rfl

/-- The jump behind the label is not taken if the turn of a lane has come. -/
theorem runs_skip {i : ℕ} (h : s.rest = skip F i ++ rest) (hdue : ∃ lane, s.flag lane = true) :
    Runs F D s { s with rest := rest } := by
  have hskip : skip F i = [] ∨ ∃ jip, skip F i = [.JMPI .noneEnabled jip] := by
    rw [skip]
    split
    · split_ifs
      · exact .inr ⟨_, rfl⟩
      · exact .inl rfl
    · exact .inl rfl
  obtain hnil | ⟨jip, hjump⟩ := hskip
  · rw [hnil, List.nil_append] at h
    exact ⟨0, congrArg (fun r => { s with rest := r }) h⟩
  · rw [hjump, List.singleton_append] at h
    refine .of_step ⟨0, ?_⟩
    rw [step_jmpi h]
    simp [JumpPredicate.holds, hdue]

/-- The `IF` and the block, for the lanes that it enables. -/
theorem runs_enabled {i : ℕ} {l : CodeLabel} (h : s.rest = .IF l :: .body i :: rest)
    (henabled : ∃ lane, (D.active lane && s.flag lane) = true) :
    Runs F D s { s with
      rest := rest
      mask := fun lane => D.active lane && s.flag lane
      taken := fun lane => if D.active lane && s.flag lane then
        D.outcome lane (s.trace lane).length else D.stale s.clock lane
      trace := fun lane => if D.active lane && s.flag lane then s.trace lane ++ [i]
        else s.trace lane
      clock := s.clock + 1 } := by
  refine .of_step (.of_step ⟨0, ?_⟩)
  rw [step_if h, if_pos henabled, step_body rfl]
  rfl

theorem runs_behind {i : ℕ} (h : s.rest = behind F i) :
    Runs F D s { s with rest := exit F i ++ codeFrom F (i + 1), mask := D.active } := by
  refine .of_step (.of_step ⟨0, ?_⟩)
  rw [step_label h, step_endif rfl]
  rfl

/-- A block is executed by the lanes whose turn it is. -/
theorem runs_block {i : ℕ} (hi : i < F.bottom) (hrest : s.rest = codeFrom F i)
    (hidle : ∀ lane, D.active lane = false → F.label i < s.blockIP lane)
    (hdue : ∃ lane, s.blockIP lane ≤ F.label i) :
    ∃ s', Runs F D (step F D s) s' ∧ s'.rest = exit F i ++ codeFrom F (i + 1) ∧
      s'.mask = D.active ∧
      (∀ lane, s.blockIP lane ≤ F.label i →
        s'.trace lane = s.trace lane ++ [i] ∧
        s'.taken lane = D.outcome lane (s.trace lane).length ∧
        s'.blockIP lane = newIP F i (s.blockIP lane) (s'.taken lane)) ∧
      ∀ lane, F.label i < s.blockIP lane →
        s'.trace lane = s.trace lane ∧ s'.blockIP lane = s.blockIP lane := by
  have hactive : ∀ lane, s.blockIP lane ≤ F.label i → D.active lane = true := by
    intro lane hle
    by_contra hoff
    have := hidle lane (by simpa using hoff)
    omega
  rw [codeFrom_front hi] at hrest
  have henabled : ∃ lane, (D.active lane && decide (s.blockIP lane ≤ F.label i)) = true := by
    obtain ⟨lane, hle⟩ := hdue
    exact ⟨lane, by simp [hactive lane hle, hle]⟩
  have hflag : ∃ lane, decide (s.blockIP lane ≤ F.label i) = true := by simpa using hdue
  refine ⟨_, (runs_head hrest).trans ((runs_skip rfl hflag).trans
    ((runs_enabled rfl henabled).trans ((runs_moves rfl).trans (runs_behind rfl)))), rfl, rfl,
    fun lane hle => ?_, fun lane hlt => ?_⟩
  · simp [hactive lane hle, hle]
  · simp [Nat.not_le.mpr hlt]

/-- A block that no lane waits for is passed over. -/
theorem runs_skipped {i : ℕ} (hi : i < F.bottom) (hrest : s.rest = codeFrom F i)
    (hmask : s.mask = D.active) (hnone : ∀ lane, F.label i < s.blockIP lane) :
    ∃ s', Runs F D (step F D s) s' ∧ s'.mask = D.active ∧ s'.trace = s.trace ∧
      s'.blockIP = s.blockIP ∧
      ((∃ jip, labelJIP F i = some jip ∧ s'.rest = goto F (.block jip)) ∨
        ((endsInJump F i = false ∨ labelJIP F i = none) ∧
          s'.rest = exit F i ++ codeFrom F (i + 1))) := by
  rw [codeFrom_front hi] at hrest
  have hflag : ¬ ∃ lane, decide (s.blockIP lane ≤ F.label i) = true := by
    simpa using hnone
  have henabled : ¬ ∃ lane, (D.active lane && decide (s.blockIP lane ≤ F.label i)) = true := by
    rintro ⟨lane, hlane⟩
    exact hflag ⟨lane, (Bool.and_eq_true_iff.mp hlane).2⟩
  by_cases hjump : skip F i = []
  · -- the `IF` leads over the block
    have hover : endsInJump F i = false ∨ labelJIP F i = none := by
      rw [skip] at hjump
      cases hjip : labelJIP F i with
      | none => exact .inr rfl
      | some jip =>
        rw [hjip] at hjump
        simp only [ite_eq_right_iff, List.cons_ne_self, imp_false, Bool.or_eq_true, not_or] at hjump
        exact .inl (by simpa using hjump.2)
    rw [hjump, List.nil_append] at hrest
    refine ⟨_, (runs_head hrest).trans (.of_step (runs_behind (i := i) ?_)), rfl, ?_, ?_,
      .inr ⟨hover, rfl⟩⟩
    · rw [step_if rfl, if_neg henabled, goto_endif hi]
      rfl
    · rw [step_if rfl]
    · rw [step_if rfl]
  · obtain ⟨jip, hjip, hcode⟩ : ∃ jip, labelJIP F i = some jip ∧
        skip F i = [.JMPI .noneEnabled jip] := by
      rw [skip] at hjump ⊢
      cases hjip : labelJIP F i with
      | none => simp [hjip] at hjump
      | some jip =>
        rw [hjip] at hjump
        exact ⟨jip, rfl, if_pos (by_contra fun hno => hjump (if_neg hno))⟩
    rw [hcode, List.singleton_append] at hrest
    refine ⟨_, (runs_head hrest).trans (.of_step (.refl _)), ?_, ?_, ?_, .inl ⟨jip, hjip, ?_⟩⟩
    · rw [step_jmpi rfl]
      exact hmask
    · rw [step_jmpi rfl]
    · rw [step_jmpi rfl]
    · rw [step_jmpi rfl]
      simp only [JumpPredicate.holds, hflag, decide_false, Bool.not_false, if_true]

/-! ### The jump behind a block -/

/-- A lane that has executed block `i` waits for its next block while the thread goes on at `j`. -/
def Lands (F : Layout) (i j : ℕ) (taken : Bool) : Prop :=
  ∀ n old, successor F i taken = some n → old ≤ F.label i → Pending F j n ∧
    (n = j ∧ newIP F i old taken ≤ F.label j ∨ newIP F i old taken = F.label n)

/-- The thread goes from block `i` on to block `j`. -/
structure Continues (F : Layout) (i j : ℕ) (taken : Fin W → Bool) : Prop where
  le_bottom : j ≤ F.bottom
  /-- no block that a lane waits for is skipped -/
  waiting : ∀ n, i < n → Pending F i n → Pending F j n
  lands : ∀ lane, Lands F i j (taken lane)
  /-- the thread goes back only if the block may not have been passed over -/
  forward : endsInJump F i = false ∨ labelJIP F i = none → i < j

theorem waiting_next {i n : ℕ} (hin : i < n) (h : Pending F i n) : Pending F (i + 1) n :=
  h.advance (Nat.le_succ i) hin

theorem continues_fallThrough {i : ℕ} (hi : i < F.bottom) (hlast : F.last i = .fallThrough)
    (taken : Fin W → Bool) : Continues F i (i + 1) taken where
  le_bottom := hi
  waiting _ := waiting_next
  lands := by
    intro lane n old hn hold
    simp only [successor, if_pos hi, hlast, Option.some.injEq] at hn
    subst hn
    refine ⟨.refl, .inl ⟨rfl, ?_⟩⟩
    simp only [newIP, hlast]
    exact hold.trans (label_le_iff.mpr (Nat.le_succ i))
  forward _ := Nat.lt_succ_self i

section Branch

variable {i dst : ℕ} {predicated : Bool} {taken : Fin W → Bool}

theorem successor_bra (hi : i < F.bottom) (hlast : F.last i = .bra dst predicated) (b : Bool) :
    successor F i b = some (if !predicated || b then dst else i + 1) := by
  simp only [successor, if_pos hi, hlast]

theorem newIP_bra (hlast : F.last i = .bra dst predicated) (old : ℕ) (b : Bool) :
    newIP F i old b = if !predicated || b then F.label dst
      else if F.label dst ≤ F.label i then F.label (i + 1) else old := by
  simp only [newIP, hlast]

theorem target_bra (hi : i < F.bottom) (hlast : F.last i = .bra dst predicated) :
    F.target i = some (F.label dst) :=
  target_eq_some.mpr ⟨hi, dst, predicated, hlast, rfl⟩

/-- A forward branch goes on anywhere up to its target, if the lanes that do not take it go on
with the next block. -/
theorem continues_forward {j : ℕ} (hi : i < F.bottom) (hlast : F.last i = .bra dst predicated)
    (hdst : i < dst) (hij : i < j) (hj : j ≤ dst)
    (hwait : ∀ n, i < n → Pending F i n → j ≤ n) (hnext : predicated = true → j = i + 1) :
    Continues F i j taken where
  le_bottom := hj.trans (F.target_le hlast)
  waiting n hin h := h.advance hij.le (hwait n hin h)
  lands := by
    intro lane n old hn hold
    rw [successor_bra hi hlast, Option.some.injEq] at hn
    rw [newIP_bra hlast]
    by_cases hb : (!predicated || taken lane) = true
    · rw [if_pos hb] at hn ⊢
      subst hn
      exact ⟨pending_of_forward (target_bra hi hlast) hij hj, .inr rfl⟩
    · rw [if_neg hb] at hn ⊢
      obtain rfl := hnext (by cases predicated <;> simp_all)
      subst hn
      refine ⟨.refl, .inl ⟨rfl, ?_⟩⟩
      rw [if_neg (by rw [label_le_iff]; omega)]
      exact hold.trans (label_le_iff.mpr (Nat.le_succ i))
  forward _ := hij

/-- A backward branch that is taken. -/
theorem continues_back (hi : i < F.bottom) (hlast : F.last i = .bra dst predicated)
    (hdst : dst ≤ i) : Continues F i dst taken where
  le_bottom := F.target_le hlast
  waiting n hin h := pending_of_backward (target_bra hi hlast) hdst (waiting_next hin h)
  lands := by
    intro lane n old hn hold
    rw [successor_bra hi hlast, Option.some.injEq] at hn
    rw [newIP_bra hlast]
    by_cases hb : (!predicated || taken lane) = true
    · rw [if_pos hb] at hn ⊢
      subst hn
      exact ⟨.refl, .inr rfl⟩
    · rw [if_neg hb] at hn ⊢
      subst hn
      rw [if_pos (label_le_iff.mpr hdst)]
      exact ⟨pending_of_backward (target_bra hi hlast) hdst .refl, .inr rfl⟩
  forward := by
    rintro (hjump | hjip)
    · simp [endsInJump, hlast, label_le_iff, hdst] at hjump
    · exact absurd hjip (labelJIP_of_backward (target_bra hi hlast) hdst)

/-- A backward branch that no lane takes. -/
theorem continues_past (hi : i < F.bottom) (hlast : F.last i = .bra dst true)
    (hdst : dst ≤ i) (hnone : ∀ lane, taken lane = false) : Continues F i (i + 1) taken where
  le_bottom := hi
  waiting _ := waiting_next
  lands := by
    intro lane n old hn hold
    rw [successor_bra hi hlast, Option.some.injEq, hnone lane, if_neg (by decide)] at hn
    subst hn
    rw [newIP_bra hlast, hnone lane, if_neg (by decide), if_pos (label_le_iff.mpr hdst)]
    exact ⟨.refl, .inr rfl⟩
  forward _ := Nat.lt_succ_self i

end Branch

theorem runs_jump {predicate : JumpPredicate} {j : ℕ} (hj : j ≤ F.bottom)
    (h : s.rest = [Insn.JMPI predicate (F.label j)] ++ rest) (hp : predicate.holds s = true) :
    Runs F D s { s with rest := codeFrom F j } := by
  refine .of_step ⟨0, ?_⟩
  rw [step_jmpi h, hp, if_pos rfl, goto_block hj]
  rfl

theorem runs_exit {i : ℕ} (hi : i < F.bottom) (h : s.rest = exit F i ++ codeFrom F (i + 1)) :
    ∃ j, Runs F D s { s with rest := codeFrom F j } ∧ Continues F i j s.taken := by
  have hstay : exit F i = [] → Runs F D s { s with rest := codeFrom F (i + 1) } := by
    intro hnil
    rw [hnil, List.nil_append] at h
    exact ⟨0, congrArg (fun r => { s with rest := r }) h⟩
  cases hlast : F.last i with
  | fallThrough =>
    exact ⟨i + 1, hstay (by rw [exit, hlast]), continues_fallThrough hi hlast _⟩
  | bra dst predicated =>
    have hexit := h
    simp only [exit, hlast] at hexit
    by_cases hback : F.label dst ≤ F.label i
    · have hdst : dst ≤ i := label_le_iff.mp hback
      have hjip : braJIP F i (F.label dst) = F.label dst := if_pos hback
      rw [if_pos hback, hjip] at hexit
      by_cases htaken : predicated = true ∧ ∀ lane, s.taken lane = false
      · obtain ⟨rfl, hnone⟩ := htaken
        refine ⟨i + 1, .of_step ⟨0, ?_⟩, continues_past hi hlast hdst hnone⟩
        rw [if_pos rfl] at hexit
        rw [step_jmpi hexit]
        simp [JumpPredicate.holds, hnone]
      · refine ⟨dst, runs_jump (F.target_le hlast) hexit ?_, continues_back hi hlast hdst⟩
        cases predicated with
        | false => rfl
        | true => simpa [JumpPredicate.holds] using htaken
    · have hdst : i < dst := by
        rw [label_le_iff] at hback
        omega
      rw [if_neg hback] at hexit
      by_cases hnext : (predicated || F.label (i + 1) = braJIP F i (F.label dst)) = true
      · have hnil : exit F i = [] := by
          simp only [exit, hlast]
          rw [if_neg hback, if_pos hnext]
        exact ⟨i + 1, hstay hnil, continues_forward hi hlast hdst (Nat.lt_succ_self i) hdst
          (fun _ hin _ => hin) fun _ => rfl⟩
      · rw [if_neg hnext] at hexit
        obtain ⟨j, hij, hj, hjip, hwait⟩ := exists_braJIP hdst (F.target_le hlast)
        rw [hjip] at hexit
        refine ⟨j, runs_jump (hj.trans (F.target_le hlast)) hexit rfl,
          continues_forward hi hlast hdst hij hj hwait fun hpred => ?_⟩
        rw [hpred, Bool.true_or] at hnext
        exact absurd rfl hnext

/-! ### The label of a block -/

/-- A lane is about to go on with block `n` while the thread is at block `i`. -/
structure Waits (F : Layout) (D : Launch W) (s : Thread W) (lane : Fin W) (i n : ℕ) : Prop where
  path_eq : path F (D.outcome lane) (s.trace lane).length = some n
  past : ∀ j b, (s.trace lane)[j]? = some b → path F (D.outcome lane) j = some b
  pending : Pending F i n
  ip : n = i ∧ s.blockIP lane ≤ F.label i ∨ s.blockIP lane = F.label n

/-- The thread is at the label of block `i`. -/
structure Inv (F : Layout) (D : Launch W) (i : ℕ) (s : Thread W) : Prop where
  rest : s.rest = codeFrom F i
  le_bottom : i ≤ F.bottom
  mask : s.mask = D.active
  idle : ∀ lane, D.active lane = false → s.blockIP lane = F.maxLabel ∧ s.trace lane = []
  waits : ∀ lane, D.active lane = true → ∃ n, Waits F D s lane i n

theorem inv_start : Inv F D 0 (start F D) where
  rest := codeFrom_zero.symm
  le_bottom := Nat.zero_le _
  mask := rfl
  idle lane hoff := by
    rw [start]
    simp [hoff]
  waits lane hon := by
    refine ⟨0, rfl, fun j b hb => absurd hb (by simp [start]), .refl, .inl ⟨rfl, ?_⟩⟩
    rw [start]
    simp [hon]

variable {i n : ℕ} {lane : Fin W}

/-- The comparison enables the lanes whose turn it is. -/
theorem Waits.due_iff (h : Waits F D s lane i n) : s.blockIP lane ≤ F.label i ↔ n = i := by
  constructor
  · intro hle
    obtain ⟨rfl, -⟩ | heq := h.ip
    · rfl
    · rw [heq, label_le_iff] at hle
      exact le_antisymm hle h.pending.le
  · rintro rfl
    obtain ⟨-, hle⟩ | heq := h.ip
    · exact hle
    · exact heq.le

theorem Inv.idle_lt (h : Inv F D i s) (hoff : D.active lane = false) :
    F.label i < s.blockIP lane := by
  rw [(h.idle lane hoff).1]
  exact (label_le_iff.mpr h.le_bottom).trans_lt F.label_lt_maxLabel

/-- How much the lanes have executed. -/
def total (s : Thread W) : ℕ := ∑ lane, (s.trace lane).length

theorem exists_successor (hi : i < F.bottom) (b : Bool) : ∃ n, successor F i b = some n := by
  rw [successor, if_pos hi]
  cases F.last i with
  | fallThrough => exact ⟨i + 1, rfl⟩
  | bra dst predicated => exact ⟨_, rfl⟩

/-- A list of answers gets one longer. -/
theorem past_append {p : ℕ → Option ℕ} {l : List ℕ} (h : ∀ k b, l[k]? = some b → p k = some b)
    (hi : p l.length = some i) : ∀ k b, (l ++ [i])[k]? = some b → p k = some b := by
  intro k b hb
  obtain hlt | hge := lt_or_ge k l.length
  · rw [List.getElem?_append_left hlt] at hb
    exact h k b hb
  · rw [List.getElem?_append_right hge] at hb
    obtain ⟨hk, rfl⟩ := List.getElem?_eq_some_iff.mp hb
    rw [List.length_singleton] at hk
    obtain rfl : k = l.length := by omega
    simpa using hi

/-- A lane that has executed block `i`. -/
theorem Waits.executed {s' : Thread W} {j : ℕ} (h : Waits F D s lane i i) (hi : i < F.bottom)
    (htrace : s'.trace lane = s.trace lane ++ [i])
    (htaken : s'.taken lane = D.outcome lane (s.trace lane).length)
    (hip : s'.blockIP lane = newIP F i (s.blockIP lane) (s'.taken lane))
    (hlands : Lands F i j (s'.taken lane)) : ∃ n, Waits F D s' lane j n := by
  obtain ⟨n, hn⟩ := exists_successor (F := F) hi (s'.taken lane)
  obtain ⟨hpending, hnew⟩ := hlands n (s.blockIP lane) hn (h.due_iff.mpr rfl)
  refine ⟨n, ?_, ?_, hpending, ?_⟩
  · rw [htrace, List.length_append, List.length_singleton, path, h.path_eq, Option.bind_some,
      ← htaken, hn]
  · rw [htrace]
    exact past_append h.past h.path_eq
  · rw [hip]
    exact hnew

/-- A lane that still waits. -/
theorem Waits.passed {s' : Thread W} {j : ℕ} (h : Waits F D s lane i n) (hin : i < n)
    (htrace : s'.trace lane = s.trace lane) (hip : s'.blockIP lane = s.blockIP lane)
    (hwaiting : Pending F i n → Pending F j n) : Waits F D s' lane j n := by
  refine ⟨?_, ?_, hwaiting h.pending, .inr ?_⟩
  · rw [htrace]
    exact h.path_eq
  · rw [htrace]
    exact h.past
  · rw [hip]
    obtain ⟨rfl, -⟩ | heq := h.ip
    · omega
    · exact heq

theorem Waits.lt_of_not_due (h : Waits F D s lane i n) (hlt : F.label i < s.blockIP lane) :
    i < n := by
  have hne : n ≠ i := fun heq => absurd (h.due_iff.mpr heq) (by omega)
  have := h.pending.le
  omega

/-- **From one label to the next one.**  Either some lane gets ahead or the thread does. -/
theorem Inv.next (h : Inv F D i s) (hi : i < F.bottom) :
    ∃ j s', Runs F D (step F D s) s' ∧ Inv F D j s' ∧
      (total s < total s' ∨ total s = total s' ∧ i < j) := by
  by_cases hdue : ∃ lane, s.blockIP lane ≤ F.label i
  · obtain ⟨t, hruns, hrest, hmask, hexec, hkept⟩ := runs_block hi h.rest (fun _ => h.idle_lt) hdue
    obtain ⟨j, hjump, hcont⟩ := runs_exit hi hrest
    refine ⟨j, _, hruns.trans hjump, ⟨rfl, hcont.le_bottom, hmask, ?_, ?_⟩, .inl ?_⟩
    · intro lane hoff
      obtain ⟨htrace, hip⟩ := hkept lane (h.idle_lt hoff)
      rw [← (h.idle lane hoff).1, ← (h.idle lane hoff).2]
      exact ⟨hip, htrace⟩
    · intro lane hon
      obtain ⟨n, hn⟩ := h.waits lane hon
      obtain hle | hlt := le_or_gt (s.blockIP lane) (F.label i)
      · obtain rfl := hn.due_iff.mp hle
        obtain ⟨htrace, htaken, hip⟩ := hexec lane hle
        exact hn.executed hi htrace htaken hip (hcont.lands lane)
      · obtain ⟨htrace, hip⟩ := hkept lane hlt
        have hin := hn.lt_of_not_due hlt
        exact ⟨n, hn.passed hin htrace hip (hcont.waiting n hin)⟩
    · have hlen : ∀ lane, (s.trace lane).length ≤ (t.trace lane).length := by
        intro lane
        obtain hle | hlt := le_or_gt (s.blockIP lane) (F.label i)
        · rw [(hexec lane hle).1, List.length_append]
          omega
        · rw [(hkept lane hlt).1]
      obtain ⟨lane, hle⟩ := hdue
      refine Finset.sum_lt_sum (fun lane _ => hlen lane) ⟨lane, Finset.mem_univ _, ?_⟩
      rw [(hexec lane hle).1, List.length_append, List.length_singleton]
      omega
  · have hnone : ∀ lane, F.label i < s.blockIP lane := by simpa using hdue
    obtain ⟨t, hruns, hmask, htrace, hip, hwhere⟩ := runs_skipped hi h.rest h.mask hnone
    have htotal : total s = total t := by rw [total, total, htrace]
    have hinv : ∀ {j t'}, j ≤ F.bottom → t'.rest = codeFrom F j → t'.mask = D.active →
        t'.trace = s.trace → t'.blockIP = s.blockIP →
        (∀ n, i < n → Pending F i n → Pending F j n) → Inv F D j t' := by
      intro j t' hj hrest hmask htrace hip hwaiting
      refine ⟨hrest, hj, hmask, fun lane hoff => ?_, fun lane hon => ?_⟩
      · rw [hip, htrace]
        exact h.idle lane hoff
      · obtain ⟨n, hn⟩ := h.waits lane hon
        have hin := hn.lt_of_not_due (hnone lane)
        exact ⟨n, hn.passed hin (congrFun htrace lane) (congrFun hip lane) (hwaiting n hin)⟩
    obtain ⟨jip, hjip, hrest⟩ | ⟨hover, hrest⟩ := hwhere
    · obtain ⟨b, hib, hb, rfl, hwait⟩ := exists_labelJIP hjip
      rw [goto_block hb] at hrest
      exact ⟨b, t, hruns, hinv hb hrest hmask htrace hip
        fun n hin hn => hn.advance hib.le (hwait n hin hn), .inr ⟨htotal, hib⟩⟩
    · obtain ⟨j, hjump, hcont⟩ := runs_exit hi hrest
      exact ⟨j, _, hruns.trans hjump, hinv hcont.le_bottom rfl hmask htrace hip hcont.waiting,
        .inr ⟨htotal, hcont.forward hover⟩⟩

/-! ### The end -/

/-- The thread has ended, and the active lanes have executed their paths. -/
structure Finished (F : Layout) (D : Launch W) (s : Thread W) : Prop where
  ended : s.ended
  past : ∀ lane, D.active lane = true → ∀ j b, (s.trace lane)[j]? = some b →
    path F (D.outcome lane) j = some b
  /-- the return block is the last one -/
  returned : ∀ lane, D.active lane = true → ∃ l, s.trace lane = l ++ [F.bottom]
  idle : ∀ lane, D.active lane = false → s.trace lane = []

/-- The return block. -/
theorem Inv.finish (h : Inv F D F.bottom s) :
    ∃ s', Runs F D (step F D s) s' ∧ Finished F D s' := by
  have hrest := h.rest
  rw [codeFrom_bottom, emitBlock_bottom] at hrest
  refine ⟨_, .of_step (.refl _), ?_⟩
  rw [step_label hrest, step_body rfl]
  refine ⟨⟨[], rfl⟩, fun lane hon => ?_, fun lane hon => ?_, fun lane hoff => ?_⟩
  · obtain ⟨n, hn⟩ := h.waits lane hon
    obtain rfl := hn.pending.eq_bottom
    simp only [h.mask, hon, if_true]
    exact past_append hn.past hn.path_eq
  · exact ⟨s.trace lane, by simp [h.mask, hon]⟩
  · simp [h.mask, hoff, (h.idle lane hoff).2]

/-- Nothing follows the return block. -/
theorem Finished.path_eq_none (h : Finished F D s) {lane : Fin W} (hon : D.active lane = true) :
    path F (D.outcome lane) (s.trace lane).length = none := by
  obtain ⟨l, hl⟩ := h.returned lane hon
  have hlast : path F (D.outcome lane) l.length = some F.bottom :=
    h.past lane hon _ _ (by rw [hl]; simp)
  rw [hl, List.length_append, List.length_singleton, path, hlast, Option.bind_some, successor,
    if_neg (lt_irrefl _)]

theorem step_of_ended (h : s.ended) : step F D s = s := by
  obtain ⟨rest, hrest⟩ := h
  rw [step, hrest]

theorem thread_succ (k : ℕ) : thread F D (k + 1) = step F D (thread F D k) :=
  Function.iterate_succ_apply' ..

theorem thread_of_ended {k n : ℕ} (hkn : k ≤ n) (h : (thread F D k).ended) :
    thread F D n = thread F D k := by
  induction n, hkn using Nat.le_induction with
  | base => rfl
  | succ n _ ih => rw [thread_succ, ih, step_of_ended h]

/-- What a run from a state of the thread comes to is a later state of the thread. -/
theorem exists_thread {k : ℕ} {s' : Thread W} (h : Runs F D (step F D (thread F D k)) s') :
    ∃ n, k < n ∧ thread F D n = s' := by
  obtain ⟨m, rfl⟩ := h
  refine ⟨m + (k + 1), by omega, ?_⟩
  rw [← thread_succ]
  exact Function.iterate_add_apply ..

/-- A lane only adds to what it has executed. -/
theorem trace_prefix_step (s : Thread W) (lane : Fin W) :
    s.trace lane <+: (step F D s).trace lane := by
  rw [step]
  split
  · exact List.prefix_rfl
  · split
    case h_5 =>
      show _ <+: if s.mask lane then _ else _
      split_ifs
      · exact List.prefix_append ..
      · exact List.prefix_rfl
    all_goals exact List.prefix_rfl

theorem trace_prefix {k n : ℕ} (hkn : k ≤ n) (lane : Fin W) :
    (thread F D k).trace lane <+: (thread F D n).trace lane := by
  induction n, hkn using Nat.le_induction with
  | base => exact List.prefix_rfl
  | succ n _ ih =>
    rw [thread_succ]
    exact ih.trans (trace_prefix_step ..)

/-- The thread comes to a label or to the end again and again. -/
theorem exists_later (F : Layout) (D : Launch W) (n : ℕ) :
    ∃ k ≥ n, (∃ i, Inv F D i (thread F D k)) ∨ Finished F D (thread F D k) := by
  induction n with
  | zero => exact ⟨0, le_rfl, .inl ⟨0, inv_start⟩⟩
  | succ n ih =>
    obtain ⟨k, hnk, hk⟩ := ih
    obtain rfl | hlt := hnk.eq_or_lt
    · obtain ⟨i, hi⟩ | hdone := hk
      · obtain hlt | rfl := hi.le_bottom.lt_or_eq
        · obtain ⟨j, s', hruns, hj, -⟩ := hi.next hlt
          obtain ⟨m, hm, rfl⟩ := exists_thread hruns
          exact ⟨m, hm, .inl ⟨j, hj⟩⟩
        · obtain ⟨s', hruns, hs'⟩ := hi.finish
          obtain ⟨m, hm, rfl⟩ := exists_thread hruns
          exact ⟨m, hm, .inr hs'⟩
      · refine ⟨n + 1, le_rfl, .inr ?_⟩
        rw [thread_of_ended (Nat.le_succ n) hdone.ended]
        exact hdone
    · exact ⟨k, hlt, hk⟩

/-! ### All paths -/

theorem path_eq_none_of_le {outcome : ℕ → Bool} {k n : ℕ} (hkn : k ≤ n)
    (h : path F outcome k = none) : path F outcome n = none := by
  induction n, hkn using Nat.le_induction with
  | base => exact h
  | succ n _ ih => rw [path, ih, Option.bind_none]

theorem Waits.length_le {N : ℕ} (h : Waits F D s lane i n)
    (hend : path F (D.outcome lane) N = none) : (s.trace lane).length ≤ N := by
  by_contra hlt
  have hnone := path_eq_none_of_le (Nat.le_of_not_le hlt) hend
  rw [h.path_eq] at hnone
  cases hnone

/-- Finite paths bound what the lanes execute. -/
theorem Inv.total_le {N : Fin W → ℕ} (h : Inv F D i s)
    (hend : ∀ lane, D.active lane = true → path F (D.outcome lane) (N lane) = none) :
    total s ≤ ∑ lane, N lane := by
  refine Finset.sum_le_sum fun lane _ => ?_
  cases hon : D.active lane with
  | false =>
    rw [(h.idle lane hon).2]
    exact Nat.zero_le _
  | true =>
    obtain ⟨n, hn⟩ := h.waits lane hon
    exact hn.length_le (hend lane hon)

/-- From a label the thread comes to the end if all paths do. -/
theorem Inv.exists_ended {N : Fin W → ℕ}
    (hend : ∀ lane, D.active lane = true → path F (D.outcome lane) (N lane) = none) {k : ℕ}
    (h : Inv F D i (thread F D k)) : ∃ n, (thread F D n).ended := by
  -- the lanes get ahead, or else the thread does
  induction hm : (∑ lane, N lane - total (thread F D k)) * (F.bottom + 1) + (F.bottom - i)
    using Nat.strongRecOn generalizing i k with
  | ind m ih =>
    obtain hlt | rfl := h.le_bottom.lt_or_eq
    · obtain ⟨j, s', hruns, hj, hahead⟩ := h.next hlt
      obtain ⟨n, -, rfl⟩ := exists_thread hruns
      refine ih _ ?_ hj rfl
      have htotal := hj.total_le hend
      have hbottom := hj.le_bottom
      obtain hmore | ⟨hsame, hij⟩ := hahead
      · have hle : (∑ lane, N lane - total (thread F D n) + 1) * (F.bottom + 1) ≤
            (∑ lane, N lane - total (thread F D k)) * (F.bottom + 1) :=
          Nat.mul_le_mul_right _ (by omega)
        rw [Nat.succ_mul] at hle
        omega
      · rw [← hm, hsame]
        omega
    · obtain ⟨s', hruns, hdone⟩ := h.finish
      obtain ⟨n, -, rfl⟩ := exists_thread hruns
      exact ⟨n, hdone.ended⟩

/-- The thread is at the label of the return block. -/
def Thread.AtReturn (F : Layout) (s : Thread W) : Prop := s.rest = codeFrom F F.bottom

/-- **The paths of the lanes.**  At any time each active lane has executed a beginning of the path
that it takes alone; the thread comes to the return block only when all these paths have, and at
the end the lanes have executed all of them; and the thread ends when all paths are finite. -/
theorem lanes_follow_paths (F : Layout) {W : ℕ} (D : Launch W) :
    (∀ k lane, D.active lane = true → ∀ j b, ((thread F D k).trace lane)[j]? = some b →
      path F (D.outcome lane) j = some b) ∧
    (∀ k lane, (thread F D k).AtReturn F → D.active lane = true →
      ∃ j ≤ ((thread F D k).trace lane).length, path F (D.outcome lane) j = some F.bottom) ∧
    (∀ k lane, (thread F D k).ended → D.active lane = true →
      path F (D.outcome lane) ((thread F D k).trace lane).length = none) ∧
    ((∀ lane, D.active lane = true → ∃ n, path F (D.outcome lane) n = none) →
      ∃ k, (thread F D k).ended) := by
  have hpast : ∀ k lane, D.active lane = true → ∀ j b,
      ((thread F D k).trace lane)[j]? = some b → path F (D.outcome lane) j = some b := by
    intro k lane hon j b hb
    obtain ⟨n, hkn, hn⟩ := exists_later F D k
    have hb' : ((thread F D n).trace lane)[j]? = some b := by
      obtain ⟨l, hl⟩ := trace_prefix (F := F) (D := D) hkn lane
      rw [← hl, List.getElem?_append_left (List.getElem?_eq_some_iff.mp hb).1]
      exact hb
    obtain ⟨i, hi⟩ | hdone := hn
    · obtain ⟨m, hm⟩ := hi.waits lane hon
      exact hm.past j b hb'
    · exact hdone.past lane hon j b hb'
  have hfinished : ∀ k, (thread F D k).ended → Finished F D (thread F D k) := by
    intro k hk
    obtain ⟨n, hkn, ⟨i, hi⟩ | hdone⟩ := exists_later F D k
    · -- a label is not the end
      obtain ⟨rest, hrest⟩ := exists_codeFrom hi.le_bottom
      obtain ⟨rest', hrest'⟩ := hk
      rw [thread_of_ended hkn ⟨rest', hrest'⟩] at hi
      rw [hi.rest, hrest] at hrest'
      cases hrest'
    · rwa [thread_of_ended hkn hk] at hdone
  refine ⟨hpast, ?_, fun k lane hk => (hfinished k hk).path_eq_none, ?_⟩
  · intro k lane hk hon
    rw [Thread.AtReturn, codeFrom_bottom, emitBlock_bottom] at hk
    have htwo : thread F D (k + 2) = step F D (step F D (thread F D k)) := by
      rw [thread_succ, thread_succ]
    rw [step_label hk, step_body rfl] at htwo
    have hdone := hfinished (k + 2) ⟨[], by rw [htwo]⟩
    obtain ⟨l, hl⟩ := hdone.returned lane hon
    refine ⟨l.length, ?_, hdone.past lane hon _ _ (by rw [hl]; simp)⟩
    have hlen : ((thread F D (k + 2)).trace lane).length ≤
        ((thread F D k).trace lane).length + 1 := by
      rw [htwo]
      show (if _ then _ else _ : List ℕ).length ≤ _
      split_ifs
      · rw [List.length_append, List.length_singleton]
      · exact Nat.le_succ _
    rw [hl, List.length_append, List.length_singleton] at hlen
    omega
  · intro hfinite
    have hN : ∀ lane, ∃ n, D.active lane = true → path F (D.outcome lane) n = none := by
      intro lane
      cases hon : D.active lane with
      | false => exact ⟨0, fun h => by cases h⟩
      | true =>
        obtain ⟨n, hn⟩ := hfinite lane hon
        exact ⟨n, fun _ => hn⟩
    choose N hN using hN
    exact Inv.exists_ended (k := 0) hN inv_start

end Thread

end Linearize

end Backend
