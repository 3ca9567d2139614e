/-
Runs of guarded transition systems.

A system is a partial step function `next : σ → α → Option σ`: an action is
enabled in a state iff `next` answers `some`.  `exec next s as` performs a whole
list of actions, so a run is a plain list and every statement about "every run,
every interleaving" is a statement about every list of actions.

* `exec_invariant` — a property kept by each step is kept by each run;
* `exec_invariant_of_steps` — the same when the steps are known to meet a side
  condition on the state they start in;
* `exec_total_invariant` — the same when the condition also makes the steps possible;
* `exec_invariant_iff` — where a step keeps a property exactly under a condition, the property
  holds in every state of a run exactly when each step meets the condition;
* `exec_relates` — a reflexive transitive relation kept by each step relates the
  two ends of a run;
* `exec_length_le` — a measure that each step lowers bounds the run;
* `exec_count_le` — a measure that the steps of one actor lower bounds their number;
* `stepsMeet_append` — a condition on the steps of a run, part by part;
* `foldl_invariant_iff` — `exec_invariant_iff` where every action is enabled;
* `outputs_eq_iff` — two machines with outputs agree on a run as long as their
  steps meet the condition under which one simulates the other.
-/
import Mathlib

namespace Transition

variable {σ α : Type*} {next : σ → α → Option σ}

/-- Perform a list of actions; `none` as soon as one of them is not enabled. -/
def exec (next : σ → α → Option σ) : σ → List α → Option σ
  | s, [] => some s
  | s, a :: as => (next s a).bind fun s' => exec next s' as

@[simp] theorem exec_nil (s : σ) : exec next s [] = some s := rfl

theorem exec_cons_eq_some {s t : σ} {a : α} {as : List α} :
    exec next s (a :: as) = some t ↔ ∃ m, next s a = some m ∧ exec next m as = some t := by
  simp [exec, Option.bind_eq_some_iff]

theorem exec_append {s : σ} {as bs : List α} :
    exec next s (as ++ bs) = (exec next s as).bind fun m => exec next m bs := by
  induction as generalizing s with
  | nil => rfl
  | cons a as ih =>
    simp only [List.cons_append, exec, Option.bind_assoc]
    congr 1
    funext m
    exact ih

theorem exec_append_eq_some {s t : σ} {as bs : List α} :
    exec next s (as ++ bs) = some t ↔
      ∃ m, exec next s as = some m ∧ exec next m bs = some t := by
  rw [exec_append, Option.bind_eq_some_iff]

/-- A condition met by every step of a run, read off in the state the step
starts in. -/
def StepsMeet (next : σ → α → Option σ) (C : σ → α → Prop) : σ → List α → Prop
  | _, [] => True
  | s, a :: as => C s a ∧ ∀ m, next s a = some m → StepsMeet next C m as

/-- A decidable condition can be checked along a run. -/
instance decidableStepsMeet {C : σ → α → Prop} [∀ s a, Decidable (C s a)] :
    ∀ s as, Decidable (StepsMeet next C s as)
  | _, [] => isTrue trivial
  | s, a :: as =>
    match hn : next s a with
    | none => decidable_of_iff (C s a)
        ⟨fun h => ⟨h, fun m hm => absurd (hn.symm.trans hm) (by simp)⟩, fun h => h.1⟩
    | some m =>
      have := decidableStepsMeet (C := C) m as
      decidable_of_iff (C s a ∧ StepsMeet next C m as)
        ⟨fun h => ⟨h.1, fun _ hm => Option.some.inj (hn.symm.trans hm) ▸ h.2⟩,
          fun h => ⟨h.1, h.2 m hn⟩⟩

/-- A run meets a condition in its first part, and in the rest where that leads. -/
theorem stepsMeet_append {C : σ → α → Prop} {s : σ} {as bs : List α} :
    StepsMeet next C s (as ++ bs) ↔
      StepsMeet next C s as ∧ ∀ m, exec next s as = some m → StepsMeet next C m bs := by
  induction as generalizing s with
  | nil =>
    refine ⟨fun h => ⟨trivial, fun m hm => ?_⟩, fun h => h.2 s rfl⟩
    cases hm
    exact h
  | cons a as ih =>
    constructor
    · rintro ⟨hC, hrest⟩
      refine ⟨⟨hC, fun m hm => (ih.mp (hrest m hm)).1⟩, fun t ht => ?_⟩
      obtain ⟨m, hm, ht⟩ := exec_cons_eq_some.mp ht
      exact (ih.mp (hrest m hm)).2 t ht
    · rintro ⟨⟨hC, hrest⟩, hbs⟩
      exact ⟨hC, fun m hm => ih.mpr ⟨hrest m hm, fun t ht =>
        hbs t (exec_cons_eq_some.mpr ⟨m, hm, ht⟩)⟩⟩

theorem exec_invariant_of_steps {I : σ → Prop} {C : σ → α → Prop}
    (hstep : ∀ {s a s'}, next s a = some s' → C s a → I s → I s') :
    ∀ {as : List α} {s t : σ}, exec next s as = some t → StepsMeet next C s as → I s → I t := by
  intro as
  induction as with
  | nil =>
    intro s t h _ hI
    rw [exec_nil, Option.some_inj] at h
    exact h ▸ hI
  | cons a as ih =>
    intro s t h hC hI
    obtain ⟨m, hm, ht⟩ := exec_cons_eq_some.mp h
    exact ih ht (hC.2 m hm) (hstep hm hC.1 hI)

/-- Where the condition also makes a step possible, no run whose steps meet it gets stuck. -/
theorem exec_total_invariant {I : σ → Prop} {C : σ → α → Prop}
    (hstep : ∀ {s a}, I s → C s a → ∃ s', next s a = some s' ∧ I s') :
    ∀ {as : List α} {s : σ}, I s → StepsMeet next C s as →
      ∀ pre post, as = pre ++ post → ∃ t, exec next s pre = some t ∧ I t := by
  intro as
  induction as with
  | nil =>
    intro s hI _ pre post hsplit
    rw [(List.append_eq_nil_iff.mp hsplit.symm).1]
    exact ⟨s, rfl, hI⟩
  | cons a as ih =>
    intro s hI hC pre post hsplit
    cases pre with
    | nil => exact ⟨s, rfl, hI⟩
    | cons a' pre =>
      rw [List.cons_append, List.cons.injEq] at hsplit
      obtain ⟨rfl, hsplit⟩ := hsplit
      obtain ⟨m, hm, hIm⟩ := hstep hI hC.1
      obtain ⟨t, ht, hIt⟩ := ih hIm (hC.2 m hm) pre post hsplit
      exact ⟨t, exec_cons_eq_some.mpr ⟨m, hm, ht⟩, hIt⟩

theorem exec_invariant_iff {I : σ → Prop} {C : σ → α → Prop}
    (hstep : ∀ {s a s'}, next s a = some s' → I s → (I s' ↔ C s a)) :
    ∀ {as : List α} {s t : σ}, exec next s as = some t → I s →
      ((∀ pre post m, as = pre ++ post → exec next s pre = some m → I m) ↔
        StepsMeet next C s as) := by
  intro as
  induction as with
  | nil =>
    intro s t _ hI
    refine iff_of_true (fun pre post m hsplit hm => ?_) trivial
    rw [(List.append_eq_nil_iff.mp hsplit.symm).1, exec_nil, Option.some_inj] at hm
    exact hm ▸ hI
  | cons a as ih =>
    intro s t h hI
    obtain ⟨m, hm, ht⟩ := exec_cons_eq_some.mp h
    constructor
    · intro hall
      have hIm : I m := hall [a] as m rfl (exec_cons_eq_some.mpr ⟨m, hm, rfl⟩)
      refine ⟨(hstep hm hI).mp hIm, fun m' hm' => ?_⟩
      obtain rfl : m = m' := Option.some.inj (hm.symm.trans hm')
      refine (ih ht hIm).mp fun pre post u hsplit hu => ?_
      exact hall (a :: pre) post u (by rw [hsplit, List.cons_append])
        (exec_cons_eq_some.mpr ⟨m, hm, hu⟩)
    · rintro ⟨hC, hrest⟩ pre post u hsplit hu
      have hIm : I m := (hstep hm hI).mpr hC
      cases pre with
      | nil =>
        rw [exec_nil, Option.some_inj] at hu
        exact hu ▸ hI
      | cons a' pre =>
        rw [List.cons_append, List.cons.injEq] at hsplit
        obtain ⟨rfl, hsplit⟩ := hsplit
        obtain ⟨m', hm', hu⟩ := exec_cons_eq_some.mp hu
        obtain rfl : m = m' := Option.some.inj (hm.symm.trans hm')
        exact (ih ht hIm).mpr (hrest m hm) pre post u hsplit hu

theorem exec_relates {R : σ → σ → Prop} (hrefl : ∀ s, R s s)
    (htrans : ∀ {s m t}, R s m → R m t → R s t)
    (hstep : ∀ {s a s'}, next s a = some s' → R s s') :
    ∀ {as : List α} {s t : σ}, exec next s as = some t → R s t := by
  intro as
  induction as with
  | nil =>
    intro s t h
    rw [exec_nil, Option.some_inj] at h
    exact h ▸ hrefl s
  | cons a as ih =>
    intro s t h
    obtain ⟨m, hm, ht⟩ := exec_cons_eq_some.mp h
    exact htrans (hstep hm) (ih ht)

/-- Invariant rule: what holds at the start and is kept by each step holds after
every run. -/
theorem exec_invariant {I : σ → Prop}
    (hstep : ∀ {s a s'}, next s a = some s' → I s → I s')
    {as : List α} {s t : σ} (h : exec next s as = some t) (hI : I s) : I t :=
  exec_relates (R := fun s t => I s → I t) (fun _ hs => hs)
    (fun hsm hmt hs => hmt (hsm hs)) hstep h hI

/-- A measure lowered by each step taken from a state satisfying the invariant
`I` bounds the length of every run. -/
theorem exec_length_le {I : σ → Prop} {P : α → Prop} (μ : σ → ℕ)
    (hI : ∀ {s a s'}, next s a = some s' → P a → I s → I s')
    (hμ : ∀ {s a s'}, next s a = some s' → P a → I s → μ s' < μ s) :
    ∀ {as : List α} {s t : σ}, exec next s as = some t → (∀ a ∈ as, P a) → I s →
      as.length + μ t ≤ μ s := by
  intro as
  induction as with
  | nil =>
    intro s t h _ _
    rw [exec_nil, Option.some_inj] at h
    simp [h]
  | cons a as ih =>
    intro s t h hP hs
    obtain ⟨m, hm, ht⟩ := exec_cons_eq_some.mp h
    have ha : P a := hP a (List.mem_cons_self ..)
    have hrest := ih ht (fun b hb => hP b (List.mem_cons_of_mem _ hb)) (hI hm ha hs)
    have := hμ hm ha hs
    simp only [List.length_cons]
    omega

/-- What each step of one actor lowers, and no other step raises, bounds the steps of that actor. -/
theorem exec_count_le [DecidableEq α] {I : σ → Prop} (μ : σ → ℕ) (actor : α)
    (hI : ∀ {s a s'}, next s a = some s' → I s → I s')
    (hμ : ∀ {s a s'}, next s a = some s' → I s → μ s' + (if a = actor then 1 else 0) ≤ μ s) :
    ∀ {as : List α} {s t : σ}, exec next s as = some t → I s → as.count actor + μ t ≤ μ s := by
  intro as
  induction as with
  | nil =>
    intro s t h _
    rw [exec_nil, Option.some_inj] at h
    simp [h]
  | cons a as ih =>
    intro s t h hs
    obtain ⟨m, hm, ht⟩ := exec_cons_eq_some.mp h
    have hrest := ih ht (hI hm hs)
    have hfirst := hμ hm hs
    rw [List.count_cons]
    simp only [beq_iff_eq]
    omega

/-! ### Total steps -/

/-- The property is looked at after each prefix of the run, the condition in the state that a
step starts in. -/
theorem foldl_invariant_iff {step : σ → α → σ} {I : σ → Prop} {C : σ → α → Prop}
    (hstep : ∀ {s a}, I s → (I (step s a) ↔ C s a)) {as : List α} {s : σ} (hI : I s) :
    (∀ k, I ((as.take k).foldl step s)) ↔
      ∀ pre a post, as = pre ++ a :: post → C (pre.foldl step s) a := by
  constructor
  · rintro h pre a post rfl
    have hpre := h pre.length
    have hnext := h (pre.length + 1)
    rw [List.take_append_of_le_length (Nat.le_refl _), List.take_length] at hpre
    rw [List.take_length_add_append, List.take_succ_cons, List.take_zero,
      List.foldl_append] at hnext
    exact (hstep hpre).mp hnext
  · intro h k
    induction k with
    | zero => exact hI
    | succ k ih =>
      by_cases hk : k < as.length
      · have hsplit : as = as.take k ++ as[k] :: as.drop (k + 1) := by
          rw [List.getElem_cons_drop, List.take_append_drop]
        rw [List.take_succ_eq_append_getElem hk, List.foldl_append]
        exact (hstep ih).mpr (h _ _ _ hsplit)
      · rw [List.take_of_length_le (by omega)] at ih ⊢
        exact ih

/-! ### Machines with outputs -/

variable {τ ω : Type*}

/-- The outputs of a machine that takes every input. -/
def outputs (step : σ → α → σ × ω) : σ → List α → List ω
  | _, [] => []
  | s, a :: as => (step s a).2 :: outputs step (step s a).1 as

/-- A machine as a transition system. -/
def ofStep (step : σ → α → σ × ω) (s : σ) (a : α) : Option σ := some (step s a).1

/-- Where a step meets `C`, the two machines answer alike and stay related; where
it does not, their answers differ. -/
theorem outputs_eq_iff {step : σ → α → σ × ω} {step' : τ → α → τ × ω} {R : σ → τ → Prop}
    {C : σ → α → Prop}
    (hgood : ∀ {s t a}, R s t → C s a →
      (step s a).2 = (step' t a).2 ∧ R (step s a).1 (step' t a).1)
    (hbad : ∀ {s t a}, R s t → ¬ C s a → (step s a).2 ≠ (step' t a).2) :
    ∀ {as : List α} {s : σ} {t : τ}, R s t →
      (outputs step s as = outputs step' t as ↔ StepsMeet (ofStep step) C s as) := by
  intro as
  induction as with
  | nil =>
    intro s t _
    exact ⟨fun _ => trivial, fun _ => rfl⟩
  | cons a as ih =>
    intro s t hR
    by_cases hC : C s a
    · obtain ⟨hout, hR'⟩ := hgood hR hC
      rw [outputs, outputs, hout, List.cons.injEq, eq_self_iff_true, true_and, ih hR']
      constructor
      · intro h
        refine ⟨hC, fun m hm => ?_⟩
        cases hm
        exact h
      · intro h
        exact h.2 _ rfl
    · constructor
      · intro h
        exact absurd (List.cons.inj h).1 (hbad hR hC)
      · intro h
        exact absurd h.1 hC

end Transition
