/-
Threads that ask a context for an internal kernel (`cl_base_object.c`, `cl_context.c`).

The thread that owns the context looks the kernel up and creates it.  The owner is kept under the
mutex of the object, and a thread that finds another owner sleeps on the condition.  A step is one
access to what the threads share, and the threads take their steps in any order.

* `next_locks`, `next_kernels` — what a step keeps;
* **`created_once`** — one owner at a time, and one kernel for each index;
* **`never_stuck`** — no wake-up is lost, and no assertion fails.
-/
import Beignet.Lib.Transition

namespace Runtime

namespace Ownership

variable {T Index Prg Ker : Type*} [DecidableEq T] [DecidableEq Index]

/-- Where a thread is in `cl_context_get_static_kernel_from_bin`. -/
inductive Pc (Index Ker : Type*) where
  | idle
  /-- `cl_object_take_ownership`, before `pthread_mutex_lock` -/
  | take (index : Index)
  | test (index : Index)
  /-- in `pthread_cond_wait`, asleep or about to lock the mutex again -/
  | wait (index : Index)
  /-- the condition of the loop -/
  | retest (index : Index)
  /-- before `pthread_mutex_unlock` -/
  | taken (index : Index)
  /-- the test of `internal_prgs` -/
  | find (index : Index)
  /-- `cl_program_create_from_binary` and the assignment of its result -/
  | create (index : Index)
  | created (index : Index)
  | build (index : Index)
  /-- `cl_program_create_kernel` or `cl_kernel_dup` of the first kernel -/
  | kernel (index : Index)
  | lookup (index : Index)
  /-- `cl_object_release_ownership`, before `pthread_mutex_lock` -/
  | release (index : Index) (ker : Option Ker)
  | disown (index : Index) (ker : Option Ker)
  | broadcast (index : Index) (ker : Option Ker)
  /-- before `pthread_mutex_unlock` -/
  | released (index : Index) (ker : Option Ker)
  /-- `cl_kernel_dup(ker)` -/
  | dup (index : Index) (ker : Option Ker)

namespace Pc

/-- The thread has the mutex. -/
def locked : Pc Index Ker → Bool
  | test _ | retest _ | taken _ | disown _ _ | broadcast _ _ | released _ _ => true
  | _ => false

def owns : Pc Index Ker → Bool
  | taken _ | find _ | create _ | created _ | build _ | kernel _ | lookup _ | release _ _
  | disown _ _ => true
  | _ => false

/-- A thread that creates a program or a kernel finds none, and one that goes on with a kernel
has it from the table. -/
def Ok (prgs : Index → Option Prg) (kernels : Index → Option Ker) : Pc Index Ker → Prop
  | create i => prgs i = none
  | created i => kernels i = none
  | build i | kernel i => prgs i ≠ none ∧ kernels i = none
  | release i ker | disown i ker | broadcast i ker | released i ker | dup i ker =>
    ∀ k, ker = some k → kernels i = some k
  | _ => True

omit [DecidableEq Index] in
/-- Outside the ownership only the kernels of the table matter, and those stay. -/
theorem Ok.of_not_owns {prgs prgs' : Index → Option Prg} {kernels kernels' : Index → Option Ker}
    {pc : Pc Index Ker} (h : pc.Ok prgs kernels) (hout : ¬ pc.owns)
    (hkeep : ∀ i k, kernels i = some k → kernels' i = some k) : pc.Ok prgs' kernels' := by
  cases pc with
  | find | create | created | build | kernel => exact absurd rfl hout
  | release | disown => exact absurd rfl hout
  | broadcast i ker | released i ker | dup i ker => exact fun k hk => hkeep i k (h k hk)
  | _ => trivial

end Pc

/-- The threads, the object and the context. -/
structure State (T Index Prg Ker : Type*) where
  pc : T → Pc Index Ker
  mutex : Option T
  /-- `none` is `invalid_thread_id` -/
  owner : Option T
  /-- the threads that sleep on the condition -/
  cond : T → Bool
  internal_prgs : Index → Option Prg
  internal_kernels : Index → Option Ker
  /-- the indices of the programs that were created -/
  created : List Index
  /-- what the calls have duplicated -/
  given : List (Index × Option Ker)

/-- What the functions return that a step calls. -/
structure Answers (Prg Ker : Type*) where
  prg : Option Prg
  built : Bool
  ker : Option Ker

/-- A call, a step of a thread, or a wake-up without a signal. -/
inductive Action (T Index Prg Ker : Type*) where
  | call (t : T) (index : Index)
  | step (t : T) (answers : Answers Prg Ker)
  /-- `pthread_cond_wait` may also end without a signal -/
  | wake (t : T)

/-- Nobody has called yet. -/
def init : State T Index Prg Ker where
  pc _ := .idle
  mutex := none
  owner := none
  cond _ := false
  internal_prgs _ := none
  internal_kernels _ := none
  created := []
  given := []

namespace State

variable (s : State T Index Prg Ker) (t : T)

/-- Thread `t` goes on at `pc`. -/
def goto (pc : Pc Index Ker) : State T Index Prg Ker :=
  { s with pc := Function.update s.pc t pc }

/-- `pthread_mutex_lock`, possible when nobody holds the mutex. -/
def lock (pc : Pc Index Ker) : Option (State T Index Prg Ker) :=
  if s.mutex = none then some { s.goto t pc with mutex := some t } else none

/-- `pthread_cond_wait` unlocks the mutex and sleeps. -/
def sleep (i : Index) : State T Index Prg Ker :=
  { s.goto t (.wait i) with mutex := none, cond := Function.update s.cond t true }

/-- A step of a thread; `none` where it has to wait or an assertion fails. -/
def step (a : Answers Prg Ker) : Option (State T Index Prg Ker) :=
  match s.pc t with
  | .idle => none
  | .take i => s.lock t (.test i)
  | .test i =>
    if s.owner = some t then some (s.goto t (.taken i))
    else if s.owner = none then some { s.goto t (.taken i) with owner := some t }
    else some (s.sleep t i)
  | .wait i => if s.cond t then none else s.lock t (.retest i)
  | .retest i =>
    if s.owner = none then some { s.goto t (.taken i) with owner := some t }
    else some (s.sleep t i)
  | .taken i => some { s.goto t (.find i) with mutex := none }
  | .find i => some (s.goto t (if s.internal_prgs i = none then .create i else .lookup i))
  | .create i => some { s.goto t (.created i) with
      internal_prgs := Function.update s.internal_prgs i a.prg
      created := if a.prg.isSome then i :: s.created else s.created }
  | .created i => some (s.goto t (if s.internal_prgs i = none then .release i none else .build i))
  | .build i => some (s.goto t (if a.built then .kernel i else .release i none))
  | .kernel i => some { s.goto t (.lookup i) with
      internal_kernels := Function.update s.internal_kernels i a.ker }
  | .lookup i => some (s.goto t (.release i (s.internal_kernels i)))
  | .release i k => s.lock t (.disown i k)
  | .disown i k =>
    if s.owner = some t then some { s.goto t (.broadcast i k) with owner := none } else none
  | .broadcast i k => some { s.goto t (.released i k) with cond := fun _ => false }
  | .released i k => some { s.goto t (.dup i k) with mutex := none }
  | .dup i k => some { s.goto t .idle with given := (i, k) :: s.given }

end State

/-- An action that is possible. -/
def next (s : State T Index Prg Ker) : Action T Index Prg Ker → Option (State T Index Prg Ker)
  | .call t i => match s.pc t with
    | .idle => some (s.goto t (.take i))
    | _ => none
  | .step t a => s.step t a
  | .wake t => some { s with cond := Function.update s.cond t false }

variable {s s' : State T Index Prg Ker} {a : Action T Index Prg Ker}

/-! ### Steps -/

/-- What happens to a thing that one thread can have, when thread `t` comes to have it or ceases
to. -/
def Passes (t : T) (before after : Bool) (m m' : Option T) : Prop :=
  after = before ∧ m' = m ∨ m = none ∧ after ∧ m' = some t ∨ before ∧ ¬ after ∧ m' = none

omit [DecidableEq Index] in
theorem Passes.iff {f : Pc Index Ker → Bool} {pc : T → Pc Index Ker} {m m' : Option T}
    {t : T} {p : Pc Index Ker} (hm : Passes t (f (pc t)) (f p) m m')
    (h : ∀ t, f (pc t) ↔ m = some t) (u : T) : f (Function.update pc t p u) ↔ m' = some u := by
  have hu := h u
  have ht := h t
  by_cases hut : u = t
  · subst hut
    rw [Function.update_self]
    grind [Passes]
  · rw [Function.update_of_ne hut]
    grind [Passes]

/-- What a thread that goes on to `p` does to the locks. -/
structure Moves (s : State T Index Prg Ker) (t : T) (p : Pc Index Ker)
    (s' : State T Index Prg Ker) : Prop where
  pc : s'.pc = Function.update s.pc t p
  mutex : Passes t (s.pc t).locked p.locked s.mutex s'.mutex
  owner : Passes t (s.pc t).owns p.owns s.owner s'.owner
  cond : s'.owner = none → (∀ u, s'.cond u = false) ∨ (∃ i k, p = .broadcast i k) ∨
    s'.cond = s.cond ∧ s.owner = none ∧ ∀ i k, s.pc t ≠ .broadcast i k

/-- The mutex and the ownership are where the threads say, and threads sleep while there is an
owner, or until the broadcast that comes after. -/
structure Locks (s : State T Index Prg Ker) : Prop where
  mutex : ∀ t, (s.pc t).locked ↔ s.mutex = some t
  owner : ∀ t, (s.pc t).owns ↔ s.owner = some t
  asleep : ∀ t, s.cond t → s.owner = none → ∃ u i k, s.pc u = .broadcast i k

omit [DecidableEq T] [DecidableEq Index] in
theorem init_locks : Locks (init : State T Index Prg Ker) := by
  refine ⟨fun t => ?_, fun t => ?_, fun t ht => ?_⟩ <;> simp_all [init, Pc.locked, Pc.owns]

theorem step_moves (hs : Locks s) {t : T} {a : Answers Prg Ker} (h : s.step t a = some s') :
    ∃ p, Moves s t p s' := by
  have howner := hs.owner t
  unfold State.step State.lock at h
  cases hpc : s.pc t <;> simp only [hpc] at h howner
  all_goals try split at h
  all_goals try split at h
  all_goals cases h
  all_goals
    refine ⟨_, rfl, ?_, ?_, ?_⟩ <;>
      simp_all [Passes, State.goto, State.sleep, Pc.locked, Pc.owns]

omit [DecidableEq Index] in
theorem Moves.locks {t : T} {p : Pc Index Ker} (h : Moves s t p s') (hs : Locks s) :
    Locks s' := by
  refine ⟨fun u => ?_, fun u => ?_, fun u hu hnone => ?_⟩
  · rw [h.pc]
    exact h.mutex.iff hs.mutex u
  · rw [h.pc]
    exact h.owner.iff hs.owner u
  · rw [h.pc]
    obtain hall | ⟨i, k, rfl⟩ | ⟨hcond, hsame, hne⟩ := h.cond hnone
    · exact absurd hu (by simp [hall u])
    · exact ⟨t, i, k, Function.update_self ..⟩
    · obtain ⟨v, i, k, hv⟩ := hs.asleep u (hcond ▸ hu) hsame
      have hvt : v ≠ t := by
        rintro rfl
        exact hne i k hv
      exact ⟨v, i, k, by rw [Function.update_of_ne hvt, hv]⟩

theorem next_locks (h : next s a = some s') (hs : Locks s) : Locks s' := by
  cases a with
  | call t i =>
    simp only [next] at h
    split at h <;> cases h
    rename_i hpc
    refine Moves.locks (t := t) (p := .take i) ⟨rfl, .inl ?_, .inl ?_, fun hnone => ?_⟩ hs
    · exact ⟨by rw [hpc]; rfl, rfl⟩
    · exact ⟨by rw [hpc]; rfl, rfl⟩
    · exact .inr (.inr ⟨rfl, hnone, by simp [hpc]⟩)
  | step t a =>
    obtain ⟨p, hp⟩ := step_moves hs h
    exact hp.locks hs
  | wake t =>
    cases h
    refine ⟨hs.mutex, hs.owner, fun u hu => hs.asleep u ?_⟩
    by_cases hut : u = t
    · simp [hut] at hu
    · simpa [hut] using hu

/-! ### The kernels -/

/-- Each index has one program and one kernel. -/
structure Kernels (s : State T Index Prg Ker) : Prop where
  created : s.created.Nodup
  prg : ∀ i, s.internal_prgs i = none → i ∉ s.created ∧ s.internal_kernels i = none
  pc : ∀ t, (s.pc t).Ok s.internal_prgs s.internal_kernels
  given : ∀ i k, (i, some k) ∈ s.given → s.internal_kernels i = some k

/-- What a thread that goes on to a place does to the tables. -/
inductive Effect (s : State T Index Prg Ker) (t : T) :
    Pc Index Ker → State T Index Prg Ker → Prop where
  | keep {p s'} (hprgs : s'.internal_prgs = s.internal_prgs)
    (hkernels : s'.internal_kernels = s.internal_kernels) (hcreated : s'.created = s.created)
    (hgiven : ∀ x ∈ s'.given, x ∈ s.given ∨ s.pc t = .dup x.1 x.2)
    (hp : p.Ok s.internal_prgs s.internal_kernels) : Effect s t p s'
  | create {i prg s'} (hpc : s.pc t = .create i)
    (hprgs : s'.internal_prgs = Function.update s.internal_prgs i prg)
    (hkernels : s'.internal_kernels = s.internal_kernels)
    (hcreated : s'.created = if prg.isSome then i :: s.created else s.created)
    (hgiven : s'.given = s.given) : Effect s t (.created i) s'
  | kernel {i ker s'} (hpc : s.pc t = .kernel i)
    (hprgs : s'.internal_prgs = s.internal_prgs)
    (hkernels : s'.internal_kernels = Function.update s.internal_kernels i ker)
    (hcreated : s'.created = s.created) (hgiven : s'.given = s.given) :
    Effect s t (.lookup i) s'

theorem step_effect (hs : Kernels s) {t : T} {a : Answers Prg Ker} (h : s.step t a = some s') :
    ∃ p, s'.pc = Function.update s.pc t p ∧ Effect s t p s' := by
  have hpc' := hs.pc t
  have hprg := hs.prg
  unfold State.step State.lock at h
  cases hpc : s.pc t
  case create i =>
    simp only [hpc, Option.some.injEq] at h
    subst h
    exact ⟨_, rfl, .create hpc rfl rfl rfl rfl⟩
  case kernel i =>
    simp only [hpc, Option.some.injEq] at h
    subst h
    exact ⟨_, rfl, .kernel hpc rfl rfl rfl rfl⟩
  all_goals simp only [hpc] at h hpc'
  all_goals try split at h
  all_goals try split at h
  all_goals cases h
  all_goals
    refine ⟨_, rfl, .keep rfl rfl rfl ?_ ?_⟩ <;> simp_all [Pc.Ok, State.goto, State.sleep]

omit [DecidableEq T] in
/-- Nobody else creates a kernel, and what is in the table stays. -/
theorem Effect.others {t u : T} {p : Pc Index Ker} (h : Effect s t p s') (hl : Locks s)
    (hs : Kernels s) (hut : u ≠ t) : (s.pc u).Ok s'.internal_prgs s'.internal_kernels := by
  have hu := hs.pc u
  have ht := hs.pc t
  -- while this thread owns the context, the other one is outside
  have hnot : (s.pc t).owns → ¬ (s.pc u).owns := fun howns howns' =>
    hut (Option.some.inj (((hl.owner u).mp howns').symm.trans ((hl.owner t).mp howns)))
  cases h with
  | keep hprgs hkernels hcreated hgiven hp => rwa [hprgs, hkernels]
  | create hpc hprgs hkernels =>
    exact hu.of_not_owns (hnot (by rw [hpc]; rfl)) fun j k hk => hkernels ▸ hk
  | @kernel i ker _ hpc hprgs hkernels =>
    refine hu.of_not_owns (hnot (by rw [hpc]; rfl)) fun j k hk => ?_
    rw [hpc] at ht
    have hji : j ≠ i := by
      rintro rfl
      rw [ht.2] at hk
      cases hk
    rw [hkernels, Function.update_of_ne hji, hk]

theorem Effect.kernels {t : T} {p : Pc Index Ker} (h : Effect s t p s') (hl : Locks s)
    (hs : Kernels s) (hpc : s'.pc = Function.update s.pc t p) : Kernels s' := by
  have ht := hs.pc t
  have hothers : p.Ok s'.internal_prgs s'.internal_kernels →
      ∀ u, (s'.pc u).Ok s'.internal_prgs s'.internal_kernels := by
    intro hp u
    rw [hpc]
    by_cases hut : u = t
    · rwa [hut, Function.update_self]
    · rw [Function.update_of_ne hut]
      exact h.others hl hs hut
  cases h with
  | keep hprgs hkernels hcreated hgiven hp =>
    refine ⟨hcreated ▸ hs.created, ?_, hothers (by rwa [hprgs, hkernels]), fun i k hk => ?_⟩
    · rw [hprgs, hkernels, hcreated]
      exact hs.prg
    · rw [hkernels]
      obtain hk | hdup := hgiven _ hk
      · exact hs.given i k hk
      · rw [hdup] at ht
        exact ht k rfl
  | @create i prg _ hat hprgs hkernels hcreated hgiven =>
    rw [hat] at ht
    obtain ⟨hnew, hblank⟩ := hs.prg i ht
    have hmem : ∀ j, j ∈ s'.created → j = i ∧ prg ≠ none ∨ j ∈ s.created := by
      intro j hj
      rw [hcreated] at hj
      cases prg <;> simp_all
    refine ⟨?_, fun j hj => ?_, hothers (hkernels ▸ hblank), ?_⟩
    · rw [hcreated]
      split
      · exact List.nodup_cons.mpr ⟨hnew, hs.created⟩
      · exact hs.created
    · rw [hprgs] at hj
      rw [hkernels]
      by_cases hij : j = i
      · subst hij
        rw [Function.update_self] at hj
        exact ⟨fun h => (hmem j h).elim (fun h => h.2 hj) hnew, hblank⟩
      · rw [Function.update_of_ne hij] at hj
        exact ⟨fun h => (hmem j h).elim (fun h => hij h.1) (hs.prg j hj).1, (hs.prg j hj).2⟩
    · rw [hgiven, hkernels]
      exact hs.given
  | @kernel i ker _ hat hprgs hkernels hcreated hgiven =>
    rw [hat] at ht
    have hother : ∀ j, j ≠ i → s'.internal_kernels j = s.internal_kernels j := fun j hj => by
      rw [hkernels, Function.update_of_ne hj]
    refine ⟨hcreated ▸ hs.created, fun j hj => ?_, hothers trivial, fun j k hk => ?_⟩
    · rw [hprgs] at hj
      rw [hcreated, hother j fun hji => ht.1 (hji ▸ hj)]
      exact hs.prg j hj
    · -- a kernel that was given is in the table, where this one finds nothing
      have hk' := hs.given j k (hgiven ▸ hk)
      have hji : j ≠ i := by
        rintro rfl
        rw [ht.2] at hk'
        cases hk'
      rw [hother j hji, hk']

theorem next_kernels (h : next s a = some s') (hl : Locks s) (hs : Kernels s) : Kernels s' := by
  cases a with
  | call t i =>
    simp only [next] at h
    split at h <;> cases h
    exact Effect.kernels (s := s) (t := t) (p := .take i)
      (.keep rfl rfl rfl (fun _ => .inl) trivial) hl hs rfl
  | step t a =>
    obtain ⟨p, hpc, heffect⟩ := step_effect hs h
    exact heffect.kernels hl hs hpc
  | wake t =>
    cases h
    exact ⟨hs.created, hs.prg, hs.pc, hs.given⟩

theorem run_inv {as : List (Action T Index Prg Ker)}
    (h : Transition.exec next init as = some s) : Locks s ∧ Kernels s := by
  refine Transition.exec_invariant (I := fun s => Locks s ∧ Kernels s)
    (fun hstep hs => ⟨next_locks hstep hs.1, next_kernels hstep hs.1 hs.2⟩) h
    ⟨init_locks, ?_⟩
  refine ⟨List.nodup_nil, fun i _ => ⟨List.not_mem_nil, rfl⟩, fun t => trivial, fun i k hk => ?_⟩
  exact absurd hk List.not_mem_nil

/-- However the threads are interleaved, one thread at a time owns the context, a program is
created for an index at most once, and all calls on an index that return a kernel have duplicated
the same one. -/
theorem created_once {as : List (Action T Index Prg Ker)}
    (h : Transition.exec next init as = some s) :
    (∀ t u, (s.pc t).owns → (s.pc u).owns → t = u) ∧ s.created.Nodup ∧
      ∀ i k, (i, some k) ∈ s.given → s.internal_kernels i = some k := by
  obtain ⟨hl, hk⟩ := run_inv h
  refine ⟨fun t u ht hu => ?_, hk.created, hk.given⟩
  exact Option.some.inj (((hl.owner t).mp ht).symm.trans ((hl.owner u).mp hu))

/-- However the threads are interleaved, the assertion of the release does not fail; while a
thread sleeps, the context has an owner, or the last one is about to broadcast; and while a
thread is in a call, one of those that are in a call can take a step. -/
theorem never_stuck {as : List (Action T Index Prg Ker)}
    (h : Transition.exec next init as = some s) :
    (∀ t i k, s.pc t = .disown i k → s.owner = some t) ∧
      (∀ t, s.cond t → s.owner = none → ∃ u i k, s.pc u = .broadcast i k) ∧
      ∀ t, s.pc t ≠ .idle → ∀ answers,
        ∃ u s', s.pc u ≠ .idle ∧ next s (.step u answers) = some s' := by
  obtain ⟨hl, -⟩ := run_inv h
  refine ⟨fun t i k hpc => (hl.owner t).mp (by rw [hpc]; rfl), hl.asleep, fun t ht answers => ?_⟩
  -- a thread that has what it waits for goes on
  have hgo : ∀ u, s.pc u ≠ .idle → (s.pc u).locked ∨ s.mutex = none →
      (∀ i, s.pc u = .wait i → ¬ s.cond u) →
      ∃ u s', s.pc u ≠ .idle ∧ next s (.step u answers) = some s' := by
    intro u hu hmutex hwait
    have howner := hl.owner u
    refine ⟨u, ?_⟩
    suffices (s.step u answers).isSome from
      (Option.isSome_iff_exists.mp this).imp fun s' hs' => ⟨hu, hs'⟩
    unfold State.step State.lock
    cases hpc : s.pc u <;> simp_all [Pc.locked, Pc.owns]
    all_goals repeat' split
    all_goals rfl
  have hbusy : ∀ u, (s.pc u).locked ∨ (s.pc u).owns → s.pc u ≠ .idle ∧ ∀ i, s.pc u ≠ .wait i := by
    refine fun u hu => ⟨fun hidle => ?_, fun i hi => ?_⟩
    · simp [hidle, Pc.locked, Pc.owns] at hu
    · simp [hi, Pc.locked, Pc.owns] at hu
  cases hmutex : s.mutex with
  | some u =>
    have hu := (hl.mutex u).mpr hmutex
    obtain ⟨hidle, hwait⟩ := hbusy u (.inl hu)
    exact hgo u hidle (.inl hu) fun i hi => absurd hi (hwait i)
  | none =>
    by_cases hasleep : s.cond t
    · -- the mutex is free, so that whoever will wake the thread is the owner
      cases howner : s.owner with
      | none =>
        obtain ⟨u, i, k, hu⟩ := hl.asleep t hasleep howner
        have := (hl.mutex u).mp (by rw [hu]; rfl)
        rw [hmutex] at this
        cases this
      | some u =>
        obtain ⟨hidle, hwait⟩ := hbusy u (.inr ((hl.owner u).mpr howner))
        exact hgo u hidle (.inr hmutex) fun i hi => absurd hi (hwait i)
    · exact hgo t ht (.inr hmutex) fun _ _ => hasleep

/-! ### Two threads -/

/-- While the first thread creates a kernel the second one falls asleep, and finds it later. -/
def twoThreads : List (Action Bool Unit ℕ ℕ) :=
  let go (t : Bool) (n : ℕ) : List (Action Bool Unit ℕ ℕ) :=
    List.replicate n (.step t ⟨some 1, true, some 2⟩)
  [Action.call true (), .call false ()] ++ go true 4 ++ go false 2 ++ go true 10 ++ go false 10

theorem created_once_twoThreads : ∃ s, Transition.exec next init twoThreads = some s ∧
    s.given = [((), some 2), ((), some 2)] ∧ s.created.Nodup := by
  obtain ⟨s, hs, hgiven⟩ : ∃ s, Transition.exec next init twoThreads = some s ∧
    s.given = [((), some 2), ((), some 2)] := ⟨_, rfl, rfl⟩
  exact ⟨s, hs, hgiven, (created_once hs).2.1⟩

/-- The first thread has given the context up, and the second one is still asleep. -/
theorem never_stuck_twoThreads : ∃ s, Transition.exec next init (twoThreads.take 15) = some s ∧
    s.cond false ∧ s.owner = none ∧ (∃ u i k, s.pc u = .broadcast i k) ∧
      ∃ u s', s.pc u ≠ .idle ∧ next s (.step u ⟨none, false, none⟩) = some s' := by
  obtain ⟨s, hs, hpc, hcond, howner⟩ : ∃ s,
    Transition.exec next init (twoThreads.take 15) = some s ∧
      s.pc false = .wait () ∧ s.cond false ∧ s.owner = none := ⟨_, rfl, rfl, rfl, rfl⟩
  obtain ⟨-, hasleep, hgo⟩ := never_stuck hs
  exact ⟨s, hs, hcond, howner, hasleep false hcond howner, hgo false (by simp [hpc]) _⟩

end Ownership

end Runtime
