/-
Dependencies between events.

* `isReady_eq_zero`, `isReady_nonpos` — what an answer of `cl_event_is_ready` says;
* `Evolves` — what every action leaves alone: final statuses, and the dependencies
  of every event once it is created;
* `exec_spec` — everything one step of `cl_event_exec` does, for the API thread and
  for the worker alike;
* `dependency_safety` — in every reachable state, a command has acted, and its event
  is at `CL_RUNNING` or `CL_COMPLETE`, only if all its dependencies are at
  `CL_COMPLETE`; the submission of the commands that need an address early excepted.
-/
import Beignet.Runtime.CommandQueue

open Transition

namespace Runtime.CommandQueue

/-! ### Readiness -/

theorem isReady_nonpos {status : ℕ → ℤ} {ds : List ℕ} {ret : ℤ} (hret : ret ≤ CL_COMPLETE) :
    isReady status ds ret ≤ CL_COMPLETE ↔ ∀ d ∈ ds, status d ≤ CL_COMPLETE := by
  induction ds generalizing ret with
  | nil => simpa [isReady] using hret
  | cons d ds ih =>
    simp only [isReady, List.forall_mem_cons]
    by_cases hd : status d > CL_COMPLETE
    · rw [if_pos hd]
      constructor
      · intro h
        omega
      · rintro ⟨h, -⟩
        omega
    · rw [if_neg hd, ih (by split <;> omega)]
      exact ⟨fun h => ⟨by omega, h⟩, fun h => h.2⟩

theorem isReady_eq_zero {status : ℕ → ℤ} {ds : List ℕ} {ret : ℤ} (hret : ret ≤ CL_COMPLETE) :
    isReady status ds ret = CL_COMPLETE ↔
      ret = CL_COMPLETE ∧ ∀ d ∈ ds, status d = CL_COMPLETE := by
  induction ds generalizing ret with
  | nil => simp [isReady]
  | cons d ds ih =>
    simp only [isReady, List.forall_mem_cons]
    by_cases hd : status d > CL_COMPLETE
    · rw [if_pos hd]
      constructor
      · intro h
        omega
      · rintro ⟨-, h, -⟩
        omega
    · rw [if_neg hd, ih (by split <;> omega)]
      by_cases hneg : status d < CL_COMPLETE
      · rw [if_pos hneg]
        constructor
        · rintro ⟨h, -⟩
          omega
        · rintro ⟨-, h, -⟩
          omega
      · rw [if_neg hneg]
        constructor
        · rintro ⟨h, hds⟩
          exact ⟨h, by omega, hds⟩
        · rintro ⟨h, -, hds⟩
          exact ⟨h, hds⟩

/-- All dependencies of `e` have completed. -/
def AllComplete (s : State) (e : ℕ) : Prop :=
  ∀ d ∈ (s.event e).deps, (s.event d).status = CL_COMPLETE

/-- All dependencies of `e` have a final status. -/
def Settled (s : State) (e : ℕ) : Prop :=
  ∀ d ∈ (s.event e).deps, (s.event d).status ≤ CL_COMPLETE

/-- Some dependency of `e` has ended with an error. -/
def Doomed (s : State) (e : ℕ) : Prop :=
  ∃ d ∈ (s.event e).deps, (s.event d).status < CL_COMPLETE

theorem Doomed.not_allComplete {s : State} {e : ℕ} (h : Doomed s e) : ¬ AllComplete s e := by
  obtain ⟨d, hd, hlt⟩ := h
  intro hall
  have := hall d hd
  omega

theorem AllComplete.settled {s : State} {e : ℕ} (h : AllComplete s e) : Settled s e :=
  fun d hd => (h d hd).le

theorem Settled.allComplete_or_doomed {s : State} {e : ℕ} (h : Settled s e) :
    AllComplete s e ∨ Doomed s e := by
  by_cases hall : AllComplete s e
  · exact .inl hall
  · unfold AllComplete at hall
    push Not at hall
    obtain ⟨d, hd, hne⟩ := hall
    exact .inr ⟨d, hd, lt_of_le_of_ne (h d hd) hne⟩

/-! ### What every action leaves alone -/

/-- A final status does not change. -/
def Evolves (s s' : State) : Prop :=
  ∀ e, (s.event e).status ≤ CL_COMPLETE → (s'.event e).status = (s.event e).status

section Stable

variable {s s' : State} {e : ℕ}

theorem AllComplete.mono (h : AllComplete s e) (hs : Evolves s s')
    (hd : (s'.event e).deps = (s.event e).deps) : AllComplete s' e := by
  intro d hmem
  rw [hd] at hmem
  rw [hs d (h d hmem).le, h d hmem]

theorem Settled.mono (h : Settled s e) (hs : Evolves s s')
    (hd : (s'.event e).deps = (s.event e).deps) : Settled s' e := by
  intro d hmem
  rw [hd] at hmem
  rw [hs d (h d hmem)]
  exact h d hmem

theorem Doomed.mono (h : Doomed s e) (hs : Evolves s s')
    (hd : (s'.event e).deps = (s.event e).deps) : Doomed s' e := by
  obtain ⟨d, hmem, hlt⟩ := h
  refine ⟨d, by rwa [hd], ?_⟩
  rw [hs d hlt.le]
  exact hlt

end Stable

/-! ### Where a thread may stand in `cl_event_exec` -/

/-- The event may be taken down to the status `t`: either its dependencies are
complete, or that status is one that the call reaches without them. -/
def Allowed (s : State) (e : ℕ) (t : ℤ) : Prop :=
  AllComplete s e ∨ CL_QUEUED ≤ t ∨ CL_SUBMITTED ≤ t ∧ (s.event e).kind.early

/-- What is known of the event when a thread stands there. -/
def ExecOk (s : State) (e : ℕ) : Exec → Prop
  | .start t ignore => CL_COMPLETE ≤ t ∧ if ignore then Allowed s e t
      else CL_QUEUED ≤ t ∨ Settled s e
  | .cancel st => st < CL_COMPLETE ∧ Settled s e ∧ Doomed s e
  | .handle st t | .set st t => CL_COMPLETE ≤ t ∧ t ≤ st ∧ Allowed s e t
  | .fail st => st < CL_COMPLETE
  | .retire _ => (s.event e).status ≤ CL_COMPLETE

/-- The status the call is to reach is `t`. -/
def Exec.Targets (t : ℤ) : Exec → Prop
  | .start t' _ | .handle _ t' | .set _ t' => t' = t
  | _ => True

/-- The record of the event is the one it had, up to status and program counter. -/
def SameCommand (s s' : State) (e : ℕ) : Prop :=
  (s'.event e).deps = (s.event e).deps ∧ (s'.event e).kind = (s.event e).kind

theorem Allowed.mono {s s' : State} {e : ℕ} {t : ℤ} (h : Allowed s e t) (hs : Evolves s s')
    (he : SameCommand s s' e) : Allowed s' e t := by
  rcases h with h | h | h
  · exact .inl (h.mono hs he.1)
  · exact .inr (.inl h)
  · rw [← he.2] at h
    exact .inr (.inr h)

theorem ExecOk.mono {s s' : State} {e : ℕ} {x : Exec} (h : ExecOk s e x) (hs : Evolves s s')
    (he : SameCommand s s' e) : ExecOk s' e x := by
  cases x with
  | start t ignore =>
    refine ⟨h.1, ?_⟩
    cases ignore with
    | true => exact Allowed.mono h.2 hs he
    | false => exact h.2.imp_right fun h => Settled.mono h hs he.1
  | cancel st => exact ⟨h.1, h.2.1.mono hs he.1, h.2.2.mono hs he.1⟩
  | handle st t => exact ⟨h.1, h.2.1, h.2.2.mono hs he⟩
  | set st t => exact ⟨h.1, h.2.1, h.2.2.mono hs he⟩
  | fail st => exact h
  | retire r =>
    show (s'.event e).status ≤ CL_COMPLETE
    rw [hs e h]
    exact h

/-! ### One event at a time -/

/-- The status after `cl_event_set_status`. -/
theorem set_status_eq (s : State) (e : ℕ) (st : ℤ) :
    cl_event_set_status s e st = s.setEvent e { s.event e with
      status := if CL_COMPLETE < (s.event e).status ∧ st < (s.event e).status then st
        else (s.event e).status } := by
  unfold cl_event_set_status
  rcases h : assignStatus (s.event e).status st with _ | st'
  · rw [if_neg fun hc => by
      rw [assignStatus_eq_some.mpr ⟨hc.1, hc.2, rfl⟩] at h
      exact absurd h (by simp)]
    simp [State.setEvent]
  · obtain ⟨h1, h2, rfl⟩ := assignStatus_eq_some.mp h
    rw [if_pos ⟨h1, h2⟩]

/-- Only the event `e` is changed, and of that only its status and its list of
dependencies. -/
structure Touches (s : State) (e : ℕ) (s' : State) : Prop where
  eventNum : s'.eventNum = s.eventNum
  event : ∃ st ds, s'.event = Function.update s.event e
      { s.event e with status := st, depend_events := ds } ∧
    ((s.event e).status ≤ CL_COMPLETE → st = (s.event e).status)
  enqueued : ∀ q, (s'.queue q).enqueued_events = (s.queue q).enqueued_events
  worker : ∀ q, (s'.queue q).worker = (s.queue q).worker
  outOfOrder : ∀ q, (s'.queue q).outOfOrder = (s.queue q).outOfOrder

section Touches

variable {s s' : State} {e : ℕ}

theorem Touches.of_setEvent {st : ℤ} {ds : List ℕ}
    (hst : (s.event e).status ≤ CL_COMPLETE → st = (s.event e).status) :
    Touches s e (s.setEvent e { s.event e with status := st, depend_events := ds }) :=
  ⟨rfl, ⟨st, ds, rfl, hst⟩, fun _ => rfl, fun _ => rfl, fun _ => rfl⟩

theorem Touches.refl (s : State) (e : ℕ) : Touches s e s :=
  ⟨rfl, ⟨_, _, (Function.update_eq_self _ _).symm, fun _ => rfl⟩, fun _ => rfl, fun _ => rfl,
    fun _ => rfl⟩

theorem Touches.other (h : Touches s e s') {e' : ℕ} (hne : e' ≠ e) :
    s'.event e' = s.event e' := by
  obtain ⟨st, ds, hev, -⟩ := h.event
  rw [hev, Function.update_of_ne hne]

theorem Touches.pc (h : Touches s e s') (e' : ℕ) : (s'.event e').pc = (s.event e').pc := by
  obtain ⟨st, ds, hev, -⟩ := h.event
  by_cases he : e' = e
  · subst he
    rw [hev, Function.update_self]
  · rw [h.other he]

theorem Touches.deps (h : Touches s e s') (e' : ℕ) :
    (s'.event e').deps = (s.event e').deps := by
  obtain ⟨st, ds, hev, -⟩ := h.event
  by_cases he : e' = e
  · subst he
    rw [hev, Function.update_self]
  · rw [h.other he]

theorem Touches.kind (h : Touches s e s') (e' : ℕ) :
    (s'.event e').kind = (s.event e').kind := by
  obtain ⟨st, ds, hev, -⟩ := h.event
  by_cases he : e' = e
  · subst he
    rw [hev, Function.update_self]
  · rw [h.other he]

theorem Touches.evolves (h : Touches s e s') : Evolves s s' := by
  intro e' hle
  obtain ⟨st, ds, hev, hst⟩ := h.event
  by_cases he : e' = e
  · subst he
    rw [hev, Function.update_self]
    exact hst hle
  · rw [h.other he]

theorem Touches.same (h : Touches s e s') (e' : ℕ) : SameCommand s s' e' :=
  ⟨h.deps e', h.kind e'⟩

end Touches

/-- What is known of every event, wherever its call stands. -/
structure Core (s : State) (e : ℕ) : Prop where
  deps : (s.event e).depend_events = (s.event e).deps ∨
    (s.event e).depend_events = [] ∧ Settled s e ∧
      (AllComplete s e ∨ (s.event e).status < CL_COMPLETE)
  started : CL_COMPLETE ≤ (s.event e).status → (s.event e).status ≤ CL_RUNNING →
    AllComplete s e

section Core

variable {s s' : State} {e : ℕ}

/-- An event that has not failed sees its dependencies as they are. -/
theorem Core.is_ready_eq_zero (h : Core s e) (hst : CL_COMPLETE ≤ (s.event e).status) :
    cl_event_is_ready s e = CL_COMPLETE ↔ AllComplete s e := by
  unfold cl_event_is_ready
  rw [isReady_eq_zero le_rfl]
  rcases h.deps with hd | ⟨hd, -, hall | hneg⟩
  · rw [hd]
    exact and_iff_right rfl
  · exact ⟨fun _ => hall, fun _ => ⟨rfl, by simp [hd]⟩⟩
  · omega

theorem Core.is_ready_nonpos (h : Core s e) :
    cl_event_is_ready s e ≤ CL_COMPLETE ↔ Settled s e := by
  unfold cl_event_is_ready
  rw [isReady_nonpos le_rfl]
  rcases h.deps with hd | ⟨hd, hsettled, -⟩
  · rw [hd]
    rfl
  · exact ⟨fun _ => hsettled, fun _ => by simp [hd]⟩

/-- Changing the status, when that keeps the law. -/
theorem Core.of_touches (h : Core s e) (hs : Touches s e s')
    (hd : (s'.event e).depend_events = (s.event e).depend_events)
    (hst : (s'.event e).status = (s.event e).status ∨ (s'.event e).status < CL_COMPLETE ∨
      CL_RUNNING < (s'.event e).status ∨ AllComplete s e) : Core s' e := by
  have hev := hs.evolves
  refine ⟨?_, fun h0 h1 => ?_⟩
  · rw [hd, hs.deps]
    refine h.deps.imp_right fun ⟨hnil, hsettled, hall⟩ => ⟨hnil, hsettled.mono hev (hs.deps e), ?_⟩
    refine hall.imp (fun h => h.mono hev (hs.deps e)) fun hneg => ?_
    rw [hev e hneg.le]
    exact hneg
  · rcases hst with hst | hst | hst | hst
    · rw [hst] at h0 h1
      exact (h.started h0 h1).mono hev (hs.deps e)
    · omega
    · omega
    · exact hst.mono hev (hs.deps e)

theorem delete_depslist_touches (s : State) (e : ℕ) :
    Touches s e (cl_event_delete_depslist s e) :=
  .of_setEvent fun _ => rfl

theorem set_status_touches (s : State) (e : ℕ) (st : ℤ) :
    Touches s e (cl_event_set_status s e st) := by
  rw [set_status_eq]
  exact .of_setEvent fun h => if_neg fun hc => by omega

theorem set_status_status (s : State) (e : ℕ) (st : ℤ) :
    ((cl_event_set_status s e st).event e).status =
      if CL_COMPLETE < (s.event e).status ∧ st < (s.event e).status then st
      else (s.event e).status := by
  rw [set_status_eq]
  simp [State.setEvent]

theorem set_status_depend_events (s : State) (e : ℕ) (st : ℤ) :
    ((cl_event_set_status s e st).event e).depend_events = (s.event e).depend_events := by
  rw [set_status_eq]
  simp [State.setEvent]

theorem removeBarrier_touches (s : State) (e e' : ℕ) : Touches s e' (removeBarrier s e) := by
  unfold removeBarrier
  split
  · refine ⟨rfl, ⟨_, _, (Function.update_eq_self _ _).symm, fun _ => rfl⟩, fun q => ?_, fun q => ?_,
      fun q => ?_⟩ <;>
    · by_cases hq : q = (s.event e).queue
      · subst hq
        simp [State.setQueue]
      · simp [State.setQueue, hq]
  · exact .refl s e'

theorem handle_touches (s : State) (e : ℕ) (st ret : ℤ) :
    Touches s e (cl_enqueue_handle s e st ret) :=
  ⟨rfl, ⟨_, _, (Function.update_eq_self _ _).symm, fun _ => rfl⟩, fun _ => rfl, fun _ => rfl,
    fun _ => rfl⟩

end Core

/-! ### One step of `cl_event_exec` -/

/-- Everything a step of `cl_event_exec` on `e` guarantees. -/
structure ExecSpec (s : State) (e : ℕ) (x : Exec) (r : State × (Exec ⊕ ℤ)) : Prop where
  touches : Touches s e r.1
  core : Core r.1 e
  goes_on : ∀ x', r.2 = .inl x' → ExecOk r.1 e x' ∧ ∀ t, x.Targets t → x'.Targets t
  returns : ∀ v, r.2 = .inr v → x.Targets CL_COMPLETE → (r.1.event e).status ≤ CL_COMPLETE
  calls : ∀ c ∈ r.1.calls, c ∈ s.calls ∨
    c.1 = e ∧ (AllComplete s e ∨ c.2 = CL_SUBMITTED ∧ (s.event e).kind.early)

theorem acts_le_submitted {k : Kind} {st : ℤ} (h : k.acts st = true) :
    st = CL_SUBMITTED ∨ st = CL_COMPLETE := by
  cases k <;> simp_all [Kind.acts]

theorem exec_start_spec {s : State} {e : ℕ} {t : ℤ} {ignore : Bool} (hcore : Core s e)
    (hok : ExecOk s e (.start t ignore)) (ret : ℤ) :
    ExecSpec s e (.start t ignore) (cl_event_exec s e ret (.start t ignore)) := by
  simp only [cl_event_exec]
  by_cases hneg : (s.event e).status < CL_COMPLETE
  · rw [if_pos hneg]
    exact ⟨.refl s e, hcore, fun x' h => absurd h (by simp), fun _ _ _ => hneg.le,
      fun c hc => .inl hc⟩
  rw [if_neg hneg]
  have hst : CL_COMPLETE ≤ (s.event e).status := by omega
  by_cases hd : cl_event_is_ready s e < CL_COMPLETE
  · -- a dependency failed
    rw [if_pos hd]
    have hsettled : Settled s e := hcore.is_ready_nonpos.mp hd.le
    have hdoomed : Doomed s e := by
      refine hsettled.allComplete_or_doomed.resolve_left fun hall => ?_
      have := (hcore.is_ready_eq_zero hst).mpr hall
      omega
    refine ⟨.refl s e, hcore, fun x' h => ?_, fun v h => absurd h (by simp), fun c hc => .inl hc⟩
    obtain rfl := Sum.inl.inj h
    exact ⟨⟨hd, hsettled, hdoomed⟩, fun _ _ => trivial⟩
  rw [if_neg hd]
  -- what is known once no dependency has failed
  have hallowed : Allowed s e t := by
    cases ignore with
    | true => exact hok.2
    | false =>
      rcases hok.2 with hq | hsettled
      · exact .inr (.inl hq)
      · have := hcore.is_ready_nonpos.mpr hsettled
        exact .inl ((hcore.is_ready_eq_zero hst).mp (by omega))
  set s1 := if cl_event_is_ready s e = CL_COMPLETE then cl_event_delete_depslist s e else s
    with hs1
  have htouch : Touches s e s1 := by
    rw [hs1]
    split
    · exact delete_depslist_touches s e
    · exact .refl s e
  have hcore1 : Core s1 e := by
    rw [hs1]
    split
    · rename_i hzero
      have hall := (hcore.is_ready_eq_zero hst).mp hzero
      have hall1 : AllComplete (cl_event_delete_depslist s e) e :=
        hall.mono (delete_depslist_touches s e).evolves ((delete_depslist_touches s e).deps e)
      refine ⟨.inr ⟨?_, hall1.settled, .inl hall1⟩, fun _ _ => hall1⟩
      simp [cl_event_delete_depslist, State.setEvent]
    · exact hcore
  have hcalls : s1.calls = s.calls := by
    rw [hs1]
    split <;> rfl
  have hstatus : (s1.event e).status = (s.event e).status := by
    rw [hs1]
    split
    · simp [cl_event_delete_depslist, State.setEvent]
    · rfl
  by_cases hle : (s.event e).status ≤ t
  · rw [if_pos hle]
    refine ⟨htouch, hcore1, fun x' h => absurd h (by simp), fun v _ ht => ?_, fun c hc => ?_⟩
    · obtain rfl : t = CL_COMPLETE := ht
      rw [hstatus]
      exact hle
    · exact .inl (hcalls ▸ hc)
  · rw [if_neg hle]
    refine ⟨htouch, hcore1, fun x' h => ?_, fun v h => absurd h (by simp), fun c hc => ?_⟩
    · obtain rfl := Sum.inl.inj h
      exact ⟨⟨hok.1, by omega, hallowed.mono htouch.evolves (htouch.same e)⟩, fun _ ht => ht⟩
    · exact .inl (hcalls ▸ hc)

theorem exec_cancel_spec {s : State} {e : ℕ} {st : ℤ} (hcore : Core s e)
    (hok : ExecOk s e (.cancel st)) (ret : ℤ) :
    ExecSpec s e (.cancel st) (cl_event_exec s e ret (.cancel st)) := by
  obtain ⟨hneg, hsettled, hdoomed⟩ := hok
  set s' := cl_event_delete_depslist (cl_event_set_status s e st) e with hs'
  have hstatus : (s'.event e).status < CL_COMPLETE := by
    have hne : (s.event e).status ≠ CL_COMPLETE := fun h =>
      hdoomed.not_allComplete (hcore.started h.ge (h.le.trans (by decide)))
    simp only [hs', cl_event_delete_depslist, State.setEvent, Function.update_self,
      set_status_status]
    split <;> omega
  have htouch : Touches s e s' := by
    rw [hs', set_status_eq]
    have hfinal : (s.event e).status ≤ CL_COMPLETE →
        (if CL_COMPLETE < (s.event e).status ∧ st < (s.event e).status then st
          else (s.event e).status) = (s.event e).status :=
      fun h => if_neg fun hc => by omega
    have := @Touches.of_setEvent s e _ [] hfinal
    simpa [cl_event_delete_depslist, State.setEvent] using this
  refine ⟨htouch,
    ⟨.inr ⟨?_, hsettled.mono htouch.evolves (htouch.deps e), .inr hstatus⟩, fun h => ?_⟩,
    fun x' h => ?_, fun v h => absurd h (by simp [cl_event_exec]), fun c hc => .inl ?_⟩
  · simp [cl_event_exec, cl_event_delete_depslist, State.setEvent]
  · exact absurd h (by simpa [cl_event_exec] using hstatus)
  · obtain rfl := Sum.inl.inj h
    exact ⟨hstatus.le, fun _ _ => trivial⟩
  · rw [cl_event_exec, set_status_eq] at hc
    exact hc

theorem exec_set_spec {s : State} {e : ℕ} {st t : ℤ} (hcore : Core s e)
    (hok : ExecOk s e (.set st t)) (ret : ℤ) :
    ExecSpec s e (.set st t) (cl_event_exec s e ret (.set st t)) := by
  obtain ⟨ht, hle, hallowed⟩ := hok
  have htouch := set_status_touches s e st
  have hstatus := set_status_status s e st
  have hcore' : Core (cl_event_set_status s e st) e := by
    refine hcore.of_touches htouch (set_status_depend_events s e st) ?_
    rw [hstatus]
    split
    · rcases hallowed with hall | hq | ⟨hq, -⟩
      · exact .inr (.inr (.inr hall))
      · exact .inr (.inr (.inl (lt_of_lt_of_le (by decide) (hq.trans hle))))
      · exact .inr (.inr (.inl (lt_of_lt_of_le (by decide) (hq.trans hle))))
    · exact .inl rfl
  have hcalls : (cl_event_set_status s e st).calls = s.calls := by
    rw [set_status_eq]
    rfl
  simp only [cl_event_exec]
  refine ⟨htouch, hcore', fun x' h => ?_, fun v h hzero => ?_, fun c hc => .inl (hcalls ▸ hc)⟩
  · by_cases h0 : st ≤ CL_COMPLETE
    · rw [if_pos h0] at h
      obtain rfl := Sum.inl.inj h
      refine ⟨?_, fun _ _ => trivial⟩
      show ((cl_event_set_status s e st).event e).status ≤ CL_COMPLETE
      rw [hstatus]
      split <;> omega
    · rw [if_neg h0] at h
      by_cases h1 : t < st
      · rw [if_pos h1] at h
        obtain rfl := Sum.inl.inj h
        exact ⟨⟨ht, by omega, hallowed.mono htouch.evolves (htouch.same e)⟩, fun _ h => h⟩
      · rw [if_neg h1] at h
        cases h
  · obtain rfl : t = CL_COMPLETE := hzero
    by_cases h0 : st ≤ CL_COMPLETE
    · rw [if_pos h0] at h
      cases h
    · rw [if_neg h0, if_pos (by omega)] at h
      cases h

theorem exec_spec {s : State} {e : ℕ} {x : Exec} (hcore : Core s e) (hok : ExecOk s e x)
    {ret : ℤ} (hret : ret ≤ CL_SUCCESS) :
    ExecSpec s e x (cl_event_exec s e ret x) := by
  cases x with
  | start t ignore => exact exec_start_spec hcore hok ret
  | cancel st => exact exec_cancel_spec hcore hok ret
  | handle st t =>
    obtain ⟨ht, hle, hallowed⟩ := hok
    have htouch := handle_touches s e st ret
    refine ⟨htouch, hcore.of_touches htouch rfl (.inl rfl), fun x' h => ?_,
      fun v h => absurd h (by simp [cl_event_exec]), fun c hc => ?_⟩
    · obtain rfl := Sum.inl.inj h
      by_cases hzero : ret = CL_SUCCESS
      · rw [if_pos hzero]
        exact ⟨⟨ht, hle, hallowed.mono htouch.evolves (htouch.same e)⟩, fun _ h => h⟩
      · rw [if_neg hzero]
        exact ⟨lt_of_le_of_ne hret hzero, fun _ _ => trivial⟩
    · simp only [cl_event_exec, cl_enqueue_handle] at hc
      split at hc
      · rename_i hacts
        rcases List.mem_append.mp hc with hc | hc
        · exact .inl hc
        · obtain rfl := List.mem_singleton.mp hc
          refine .inr ⟨rfl, ?_⟩
          rcases hallowed with hall | hq | ⟨hq, hearly⟩
          · exact .inl hall
          · rcases acts_le_submitted hacts with rfl | rfl
            · exact absurd (hq.trans hle) (by decide)
            · exact absurd (hq.trans hle) (by decide)
          · rcases acts_le_submitted hacts with rfl | rfl
            · exact .inr ⟨rfl, hearly⟩
            · exact absurd (hq.trans hle) (by decide)
      · exact .inl hc
  | set st t => exact exec_set_spec hcore hok ret
  | fail st =>
    have htouch := set_status_touches s e st
    have hneg : st < CL_COMPLETE := hok
    have hstatus := set_status_status s e st
    have hcalls : (cl_event_set_status s e st).calls = s.calls := by
      rw [set_status_eq]
      rfl
    have hcore' : Core (cl_event_set_status s e st) e := by
      refine hcore.of_touches htouch (set_status_depend_events s e st) ?_
      rw [hstatus]
      split
      · exact .inr (.inl hneg)
      · exact .inl rfl
    refine ⟨htouch, hcore', fun x' h => ?_, fun v h => absurd h (by simp [cl_event_exec]),
      fun c hc => .inl (hcalls ▸ hc)⟩
    · obtain rfl := Sum.inl.inj h
      refine ⟨?_, fun _ _ => trivial⟩
      show ((cl_event_set_status s e st).event e).status ≤ CL_COMPLETE
      rw [hstatus]
      split <;> omega
  | retire r =>
    have htouch := removeBarrier_touches s e e
    have hev : (removeBarrier s e).event = s.event := by
      unfold removeBarrier
      split <;> rfl
    have hcalls : (removeBarrier s e).calls = s.calls := by
      unfold removeBarrier
      split <;> rfl
    have hcore' : Core (removeBarrier s e) e :=
      hcore.of_touches htouch (by rw [hev]) (.inl (by rw [hev]))
    refine ⟨htouch, hcore', fun x' h => absurd h (by simp [cl_event_exec]), fun v _ _ => ?_,
      fun c hc => .inl (hcalls ▸ hc)⟩
    show ((removeBarrier s e).event e).status ≤ CL_COMPLETE
    rw [hev]
    exact hok

/-! ### The invariant -/

/-- The event is with the queue or its worker, or the worker is done with it. -/
def Listed (s : State) (e : ℕ) : Prop :=
  (s.event e).pc = .queued ∨ (s.event e).pc = .finished

structure EventOk (s : State) (e : ℕ) : Prop where
  core : Core s e
  young : (s.event e).pc = .entered ∨ (s.event e).pc = .created →
    (s.event e).depend_events = (s.event e).deps
  entered : (s.event e).pc = .entered → (s.event e).status = CL_EVENT_STATE_UNKNOWN
  checked : (s.event e).pc = .checked CL_COMPLETE → AllComplete s e
  exec : ∀ x enqueue, (s.event e).pc = .exec x enqueue →
    ExecOk s e x ∧ (enqueue = false → x.Targets CL_COMPLETE)
  user : (s.event e).kind = .user → (s.event e).deps = [] ∧
    ((s.event e).pc = .returned ∨ (s.event e).pc = .failed)
  final : (s.event e).pc = .returned ∨ (s.event e).pc = .finished → (s.event e).kind ≠ .user →
    (s.event e).status ≤ CL_COMPLETE

def WorkerOk (s : State) : Worker → Prop
  | .idle => True
  | .busy frame submit complete =>
    (∀ e ∈ submit ++ complete, Listed s e ∧ Settled s e) ∧
      (∀ e rest x, submit = e :: rest → frame = some x → ExecOk s e x) ∧
      ∀ e rest x, submit = [] → complete = e :: rest → frame = some x →
        ExecOk s e x ∧ x.Targets CL_COMPLETE

structure QueueOk (s : State) (q : ℕ) : Prop where
  enqueued : ∀ e ∈ (s.queue q).enqueued_events, Listed s e
  worker : WorkerOk s (s.queue q).worker

/-- What holds after every action. -/
structure Inv (s : State) : Prop where
  fresh : ∀ e, s.eventNum ≤ e →
    (s.event e).status = CL_EVENT_STATE_UNKNOWN ∧ (s.event e).pc = .failed
  event : ∀ e, EventOk s e
  queue : ∀ q, QueueOk s q
  calls : ∀ c ∈ s.calls, c.1 < s.eventNum ∧ (s.event c.1).pc ≠ .entered ∧
    (AllComplete s c.1 ∨ c.2 = CL_SUBMITTED ∧ (s.event c.1).kind.early)

theorem init_inv (outOfOrder : ℕ → Bool) : Inv (init outOfOrder) where
  fresh _ _ := ⟨rfl, rfl⟩
  event e := by
    refine ⟨⟨.inl rfl, fun _ h => absurd h (by simp [init])⟩, ?_, ?_, ?_, ?_, ?_, ?_⟩ <;>
    simp [init]
  queue q := ⟨fun e he => absurd he (by simp [init]), trivial⟩
  calls c hc := absurd hc (by simp [init])

section Steps

variable {s s' : State}

theorem Inv.lt_eventNum (hs : Inv s) {e : ℕ} (hpc : (s.event e).pc ≠ .failed) :
    e < s.eventNum := by
  by_contra h
  exact hpc (hs.fresh e (by omega)).2

/-- An event that an action leaves alone stays in order. -/
theorem EventOk.mono {e : ℕ} (h : EventOk s e) (hs : Evolves s s')
    (he : s'.event e = s.event e) : EventOk s' e := by
  have hd : (s'.event e).deps = (s.event e).deps := by rw [he]
  have hsame : SameCommand s s' e := ⟨hd, by rw [he]⟩
  refine ⟨⟨?_, ?_⟩, ?_, ?_, ?_, ?_, ?_, ?_⟩
  · rw [he]
    refine h.core.deps.imp_right fun ⟨hnil, hsettled, hall⟩ => ⟨hnil, hsettled.mono hs hd, ?_⟩
    exact hall.imp_left fun hall => hall.mono hs hd
  · rw [he]
    exact fun h0 h1 => (h.core.started h0 h1).mono hs hd
  · rw [he]
    exact h.young
  · rw [he]
    exact h.entered
  · rw [he]
    exact fun hpc => (h.checked hpc).mono hs hd
  · rw [he]
    intro x enqueue hpc
    obtain ⟨hok, ht⟩ := h.exec x enqueue hpc
    exact ⟨hok.mono hs hsame, ht⟩
  · rw [he]
    exact h.user
  · rw [he]
    exact h.final

theorem WorkerOk.mono {w : Worker} (h : WorkerOk s w) (hs : Evolves s s')
    (hl : ∀ e, Listed s e → Listed s' e ∧ SameCommand s s' e) : WorkerOk s' w := by
  cases w with
  | idle => trivial
  | busy frame submit complete =>
    obtain ⟨hall, hsubmit, hcomplete⟩ := h
    refine ⟨fun e he => ?_, fun e rest x hsub hx => ?_, fun e rest x hsub hcomp hx => ?_⟩
    · obtain ⟨hlist, hsettled⟩ := hall e he
      exact ⟨(hl e hlist).1, hsettled.mono hs (hl e hlist).2.1⟩
    · have hlist := (hall e (by simp [hsub])).1
      exact (hsubmit e rest x hsub hx).mono hs (hl e hlist).2
    · have hlist := (hall e (by simp [hcomp])).1
      obtain ⟨hok, ht⟩ := hcomplete e rest x hsub hcomp hx
      exact ⟨hok.mono hs (hl e hlist).2, ht⟩

theorem QueueOk.mono {q : ℕ} (h : QueueOk s q) (hs : Evolves s s')
    (hl : ∀ e, Listed s e → Listed s' e ∧ SameCommand s s' e)
    (henq : (s'.queue q).enqueued_events = (s.queue q).enqueued_events)
    (hwork : (s'.queue q).worker = (s.queue q).worker) : QueueOk s' q := by
  refine ⟨fun e he => ?_, ?_⟩
  · rw [henq] at he
    exact (hl e (h.enqueued e he)).1
  · rw [hwork]
    exact h.worker.mono hs hl

/-- An action that changes the record of one event only. -/
theorem Inv.change (hs : Inv s) (e : ℕ) (he : e < s.eventNum) (hnum : s'.eventNum = s.eventNum)
    (hev : Evolves s s') (hother : ∀ e', e' ≠ e → s'.event e' = s.event e')
    (hok : EventOk s' e)
    (hsame : (s.event e).pc ≠ .entered → SameCommand s s' e ∧ (s'.event e).pc ≠ .entered)
    (hqueue : ∀ q, QueueOk s' q)
    (hcalls : ∀ c ∈ s'.calls, c ∈ s.calls ∨ c.1 = e ∧ (s'.event e).pc ≠ .entered ∧
      (AllComplete s' e ∨ c.2 = CL_SUBMITTED ∧ (s'.event e).kind.early)) : Inv s' where
  fresh e' he' := by
    rw [hother e' (by omega)]
    exact hs.fresh e' (hnum ▸ he')
  event e' := by
    by_cases h : e' = e
    · exact h ▸ hok
    · exact (hs.event e').mono hev (hother e' h)
  queue := hqueue
  calls c hc := by
    rcases hcalls c hc with hc | ⟨rfl, hpc, hc⟩
    · obtain ⟨hlt, hpc, hall⟩ := hs.calls c hc
      by_cases h : c.1 = e
      · subst h
        obtain ⟨hsame, hpc'⟩ := hsame hpc
        refine ⟨hnum ▸ hlt, hpc', hall.imp (fun hall => hall.mono hev hsame.1) fun hearly => ?_⟩
        rw [hsame.2]
        exact hearly
      · refine ⟨hnum ▸ hlt, by rwa [hother _ h], ?_⟩
        rw [hother _ h]
        exact hall.imp_left fun hall => hall.mono hev (by rw [hother _ h])
    · exact ⟨hnum ▸ he, hpc, hc⟩

/-- The events that are with a queue are not the one that changes. -/
theorem listed_of_other {e : ℕ} (hother : ∀ e', e' ≠ e → s'.event e' = s.event e')
    (he : ¬ Listed s e) : ∀ e', Listed s e' → Listed s' e' ∧ SameCommand s s' e' := by
  intro e' hl
  have hne : e' ≠ e := fun h => he (h ▸ hl)
  unfold Listed SameCommand
  rw [hother e' hne]
  exact ⟨hl, rfl, rfl⟩

/-- A new event, which nothing refers to yet. -/
theorem Inv.add (hs : Inv s) {ev : Event} (hst : CL_RUNNING < ev.status)
    (hdeps : ev.depend_events = ev.deps)
    (hpc : ev.pc = .entered ∧ ev.status = CL_EVENT_STATE_UNKNOWN ∧ ev.kind ≠ .user ∨
      ev.pc = .returned ∧ ev.kind = .user ∧ ev.deps = []) :
    Inv { s.setEvent s.eventNum ev with eventNum := s.eventNum + 1 } := by
  have hother : ∀ e', e' ≠ s.eventNum →
      (Function.update s.event s.eventNum ev) e' = s.event e' := fun e' h =>
    Function.update_of_ne h _ _
  have hev : Evolves s { s.setEvent s.eventNum ev with eventNum := s.eventNum + 1 } := by
    intro e hle
    have hne : e ≠ s.eventNum := by
      rintro rfl
      rw [(hs.fresh s.eventNum le_rfl).1] at hle
      exact absurd hle (by decide)
    show ((Function.update s.event s.eventNum ev) e).status = _
    rw [hother e hne]
  have hnew : ¬ Listed s s.eventNum := by
    unfold Listed
    rw [(hs.fresh s.eventNum le_rfl).2]
    simp
  have hl := @listed_of_other s { s.setEvent s.eventNum ev with eventNum := s.eventNum + 1 } _
    hother hnew
  refine ⟨fun e he => ?_, fun e => ?_, fun q => (hs.queue q).mono hev hl rfl rfl, fun c hc => ?_⟩
  · show ((Function.update s.event s.eventNum ev) e).status = _ ∧
      ((Function.update s.event s.eventNum ev) e).pc = _
    have hlt : s.eventNum + 1 ≤ e := he
    rw [hother e (by omega)]
    exact hs.fresh e (by omega)
  · by_cases h : e = s.eventNum
    · subst h
      have hself : (State.setEvent s s.eventNum ev).event s.eventNum = ev :=
        Function.update_self ..
      constructor
      · refine ⟨.inl ?_, fun _ h1 => ?_⟩
        · simpa [hself] using hdeps
        · simp only [hself] at h1
          omega
      · simpa [hself] using fun _ => hdeps
      · simp only [hself]
        rcases hpc with ⟨-, h, -⟩ | ⟨h, -⟩
        · exact fun _ => h
        · rw [h]
          simp
      · simp only [hself]
        rcases hpc with ⟨h, -⟩ | ⟨h, -⟩ <;> simp [h]
      · simp only [hself]
        rcases hpc with ⟨h, -⟩ | ⟨h, -⟩ <;> simp [h]
      · simp only [hself]
        rcases hpc with ⟨-, -, h⟩ | ⟨hret, -, h⟩
        · exact fun h' => absurd h' h
        · exact fun _ => ⟨h, .inl hret⟩
      · simp only [hself]
        rcases hpc with ⟨h, -⟩ | ⟨-, h, -⟩
        · simp [h]
        · exact fun _ h' => absurd h h'
    · exact (hs.event e).mono hev (hother e h)
  · obtain ⟨hlt, hpc', hall⟩ := hs.calls c hc
    have hne : c.1 ≠ s.eventNum := by omega
    show c.1 < s.eventNum + 1 ∧ ((Function.update s.event s.eventNum ev) c.1).pc ≠ _ ∧
      (_ ∨ _ ∧ ((Function.update s.event s.eventNum ev) c.1).kind.early)
    rw [hother _ hne]
    exact ⟨by omega, hpc', hall.imp_left fun hall => hall.mono hev (by
      show ((Function.update s.event s.eventNum ev) c.1).deps = _
      rw [hother _ hne])⟩

/-- An action that only moves commands between a queue and its worker. -/
theorem Inv.setQueue (hs : Inv s) (q : ℕ) (qu : Queue)
    (henq : ∀ e ∈ qu.enqueued_events, Listed s e) (hw : WorkerOk s qu.worker) :
    Inv (s.setQueue q qu) where
  fresh := hs.fresh
  event := fun e => (hs.event e).mono (fun _ _ => rfl) rfl
  queue := fun q' => by
    by_cases h : q' = q
    · subst h
      have hself : (s.setQueue q' qu).queue q' = qu := Function.update_self ..
      refine ⟨fun e he => henq e (hself ▸ he), ?_⟩
      rw [hself]
      exact hw.mono (fun _ _ => rfl) fun _ hl => ⟨hl, rfl, rfl⟩
    · have hsame : (s.setQueue q qu).queue q' = s.queue q' := Function.update_of_ne h _ _
      exact (hs.queue q').mono (fun _ _ => rfl) (fun _ hl => ⟨hl, rfl, rfl⟩)
        (by rw [hsame]) (by rw [hsame])
  calls := hs.calls

/-- An action that leaves the events and the queues alone. -/
theorem Inv.of_same (hs : Inv s) (hnum : s'.eventNum = s.eventNum) (hevent : s'.event = s.event)
    (hqueue : s'.queue = s.queue) (hcalls : s'.calls = s.calls) : Inv s' := by
  obtain ⟨eventNum, event, queue, device, calls, performed⟩ := s'
  obtain rfl := hnum
  obtain rfl := hevent
  obtain rfl := hqueue
  obtain rfl := hcalls
  refine ⟨hs.fresh, fun e => (hs.event e).mono (fun _ _ => rfl) rfl, fun q => ?_, hs.calls⟩
  exact (hs.queue q).mono (fun _ _ => rfl) (fun _ hl => ⟨hl, rfl, rfl⟩) rfl rfl

/-- An action that changes status and dependency list of one event only. -/
theorem Inv.touch (hs : Inv s) {e : ℕ} (he : e < s.eventNum) (ht : Touches s e s')
    (hcore : Core s' e) (hpc : (s.event e).pc ≠ .entered) (hpc' : (s.event e).pc ≠ .created)
    (hcalls : ∀ c ∈ s'.calls, c ∈ s.calls ∨
      c.1 = e ∧ (AllComplete s e ∨ c.2 = CL_SUBMITTED ∧ (s.event e).kind.early)) : Inv s' := by
  have hev := ht.evolves
  have hl : ∀ e', Listed s e' → Listed s' e' ∧ SameCommand s s' e' := fun e' h => by
    refine ⟨?_, ht.same e'⟩
    unfold Listed
    rw [ht.pc]
    exact h
  have hok := hs.event e
  refine hs.change e he ht.eventNum hev (fun e' h => ht.other h) ⟨hcore, ?_, ?_, ?_, ?_, ?_, ?_⟩
    (fun h => ⟨ht.same e, by rwa [ht.pc]⟩)
    (fun q => (hs.queue q).mono hev hl (ht.enqueued q) (ht.worker q)) (fun c hc => ?_)
  · rw [ht.pc]
    exact fun h => absurd h (by simp [hpc, hpc'])
  · rw [ht.pc]
    exact fun h => absurd h hpc
  · rw [ht.pc]
    exact fun h => (hok.checked h).mono hev (ht.deps e)
  · rw [ht.pc]
    intro x enqueue h
    obtain ⟨hx, htarget⟩ := hok.exec x enqueue h
    exact ⟨hx.mono hev (ht.same e), htarget⟩
  · rw [ht.pc, ht.kind, ht.deps]
    exact hok.user
  · rw [ht.pc, ht.kind]
    intro h hk
    rw [hev e (hok.final h hk)]
    exact hok.final h hk
  · rcases hcalls c hc with hc | ⟨rfl, hc⟩
    · exact .inl hc
    · refine .inr ⟨rfl, by rwa [ht.pc], hc.imp (fun h => h.mono hev (ht.deps _)) fun h => ?_⟩
      rw [ht.kind]
      exact h

/-- An action that moves the program counter of one call. -/
theorem Inv.setPc (hs : Inv s) {e : ℕ} {pc : Pc} (he : e < s.eventNum)
    (hent : pc ≠ .entered) (hcreated : pc = .created →
      (s.event e).depend_events = (s.event e).deps)
    (hchecked : pc = .checked CL_COMPLETE → AllComplete s e)
    (hexec : ∀ x enqueue, pc = .exec x enqueue →
      ExecOk s e x ∧ (enqueue = false → x.Targets CL_COMPLETE))
    (huser : (s.event e).kind = .user → pc = .returned ∨ pc = .failed)
    (hover : pc = .returned ∨ pc = .finished → (s.event e).kind ≠ .user →
      (s.event e).status ≤ CL_COMPLETE)
    (hl : Listed s e → pc = .queued ∨ pc = .finished) : Inv (s.setPc e pc) := by
  have hself : (s.setPc e pc).event e = { s.event e with pc := pc } := Function.update_self ..
  have hother : ∀ e', e' ≠ e → (s.setPc e pc).event e' = s.event e' := fun e' h =>
    Function.update_of_ne h _ _
  have hev : Evolves s (s.setPc e pc) := by
    intro e' _
    by_cases h : e' = e
    · rw [h, hself]
    · rw [hother e' h]
  have hsame : SameCommand s (s.setPc e pc) e := by
    unfold SameCommand
    rw [hself]
    exact ⟨rfl, rfl⟩
  have hlisted : ∀ e', Listed s e' → Listed (s.setPc e pc) e' ∧
      SameCommand s (s.setPc e pc) e' := by
    intro e' h
    by_cases he' : e' = e
    · subst he'
      refine ⟨?_, hsame⟩
      unfold Listed
      rw [hself]
      exact hl h
    · unfold Listed SameCommand
      rw [hother e' he']
      exact ⟨h, rfl, rfl⟩
  have hok := hs.event e
  refine hs.change e he rfl hev hother ⟨⟨?_, ?_⟩, ?_, ?_, ?_, ?_, ?_, ?_⟩
    (fun _ => ⟨hsame, by rwa [hself]⟩) (fun q => (hs.queue q).mono hev hlisted rfl rfl)
    (fun c hc => .inl hc)
  · rw [hself]
    refine hok.core.deps.imp_right fun ⟨hnil, hsettled, hall⟩ =>
      ⟨hnil, hsettled.mono hev hsame.1, hall.imp_left fun h => h.mono hev hsame.1⟩
  · rw [hself]
    exact fun h0 h1 => (hok.core.started h0 h1).mono hev hsame.1
  · rw [hself]
    rintro (h | h)
    · exact absurd h hent
    · exact hcreated h
  · rw [hself]
    exact fun h => absurd h hent
  · rw [hself]
    exact fun h => (hchecked h).mono hev hsame.1
  · rw [hself]
    intro x enqueue h
    obtain ⟨hx, ht⟩ := hexec x enqueue h
    exact ⟨hx.mono hev hsame, ht⟩
  · rw [hself]
    exact fun h => ⟨(hok.user h).1, huser h⟩
  · rw [hself]
    exact hover

/-! ### The actions -/

theorem Inv.not_user (hs : Inv s) {e : ℕ} (h1 : (s.event e).pc ≠ .returned)
    (h2 : (s.event e).pc ≠ .failed) : (s.event e).kind ≠ .user := fun h =>
  (hs.event e).user h |>.2.elim h1 h2

theorem setUser_inv (hs : Inv s) {e : ℕ} {st : ℤ} (he : e < s.eventNum)
    (hk : (s.event e).kind = .user) : Inv (cl_event_set_status s e st) := by
  obtain ⟨hd, hpc⟩ := (hs.event e).user hk
  have hall : AllComplete s e := by
    unfold AllComplete
    simp [hd]
  have ht := set_status_touches s e st
  refine hs.touch he ht ((hs.event e).core.of_touches ht (set_status_depend_events s e st)
    (.inr (.inr (.inr hall)))) ?_ ?_ fun c hc => .inl ?_
  · rcases hpc with h | h <;> simp [h]
  · rcases hpc with h | h <;> simp [h]
  · rw [set_status_eq] at hc
    exact hc

theorem enter_inv (hs : Inv s) {q : ℕ} {kind : Kind} {ds : List ℕ} {imm : Bool}
    (hk : kind ≠ .user) : Inv (enter s q kind ds imm) := by
  refine hs.add ?_ rfl (.inl ⟨rfl, rfl, hk⟩)
  show CL_RUNNING < newStatus false
  decide

theorem create_self (s : State) (e : ℕ) : (create s e).event e = { s.event e with
    depend_events := (s.event e).depend_events ++ (s.queue (s.event e).queue).barrier_events
    deps := (s.event e).depend_events ++ (s.queue (s.event e).queue).barrier_events
    pc := .created } := Function.update_self ..

theorem create_of_ne {e e' : ℕ} (h : e' ≠ e) : (create s e).event e' = s.event e' :=
  Function.update_of_ne h _ _

theorem evolves_create (s : State) (e : ℕ) : Evolves s (create s e) := by
  intro e' _
  by_cases h : e' = e
  · rw [h, create_self]
  · rw [create_of_ne h]

theorem create_inv (hs : Inv s) {e : ℕ} (hpc : (s.event e).pc = .entered) :
    Inv (create s e) := by
  have he : e < s.eventNum := hs.lt_eventNum (by simp [hpc])
  have hst := (hs.event e).entered hpc
  have hev := evolves_create s e
  have hother : ∀ e', e' ≠ e → (create s e).event e' = s.event e' := fun _ => create_of_ne
  have hl := listed_of_other hother (by simp [Listed, hpc])
  have hnot := hs.not_user (e := e) (by simp [hpc]) (by simp [hpc])
  refine hs.change e he rfl hev hother ⟨⟨.inl ?_, ?_⟩, ?_, ?_, ?_, ?_, ?_, ?_⟩
    (fun h => absurd hpc h) (fun q => (hs.queue q).mono hev hl rfl rfl) (fun c hc => .inl hc) <;>
  rw [create_self]
  · intro _ h
    rw [hst] at h
    exact absurd h (by decide)
  · exact fun _ => rfl
  · simp
  · simp
  · simp
  · exact fun h => absurd h hnot
  · simp

theorem check_inv (hs : Inv s) {e : ℕ} (hpc : (s.event e).pc = .created) :
    Inv (check s e) := by
  have he : e < s.eventNum := hs.lt_eventNum (by simp [hpc])
  have hnot := hs.not_user (e := e) (by simp [hpc]) (by simp [hpc])
  have hd := (hs.event e).young (.inr hpc)
  unfold check
  refine hs.setPc he ?_ ?_ ?_ ?_ (fun h => absurd h hnot) ?_ (by simp [Listed, hpc])
  · split <;> simp
  · split <;> simp
  · split
    · simp
    · intro h
      have hzero : cl_event_is_ready s e = CL_COMPLETE := by simpa using h
      unfold cl_event_is_ready at hzero
      rw [isReady_eq_zero le_rfl, hd] at hzero
      exact hzero.2
  · split <;> simp
  · split <;> simp

/-- Where a call goes after the check is consistent with what the check said. -/
theorem afterCheck_spec {e : ℕ} {st : ℤ} (hst : st = CL_COMPLETE → AllComplete s e)
    {x : Exec} {enqueue : Bool} (h : afterCheck s e st = .exec x enqueue) :
    ExecOk s e x ∧ (enqueue = false → x.Targets CL_COMPLETE) := by
  have hsettled : ∀ {t : ℤ}, CL_COMPLETE ≤ t → st = CL_COMPLETE →
      ExecOk s e (.start t false) := fun ht h0 => ⟨ht, .inr (hst h0).settled⟩
  have hqueued : ExecOk s e (.start CL_QUEUED false) := ⟨by decide, .inl le_rfl⟩
  have hearly : (s.event e).kind.early = true → ExecOk s e (.start CL_SUBMITTED true) :=
    fun h => ⟨by decide, .inr (.inr ⟨le_rfl, h⟩)⟩
  unfold afterCheck at h
  simp only [Bool.and_eq_true, beq_iff_eq] at h
  cases hk : (s.event e).kind <;> simp only [hk] at h hearly
  case user => exact absurd h (by simp)
  case transfer =>
    split at h <;> obtain ⟨rfl, rfl⟩ := Pc.exec.inj h
    · rename_i hb
      exact ⟨hsettled le_rfl hb.2, fun _ => rfl⟩
    · exact ⟨hqueued, by simp⟩
  case map | gl =>
    split at h <;> obtain ⟨rfl, rfl⟩ := Pc.exec.inj h
    · rename_i hb
      exact ⟨hsettled le_rfl hb.2, fun _ => rfl⟩
    · exact ⟨hearly rfl, by simp⟩
  case kernel | submit =>
    obtain ⟨rfl, rfl⟩ := Pc.exec.inj h
    split
    · rename_i hb
      exact ⟨hsettled (by decide) hb.2, by simp⟩
    · exact ⟨hqueued, by simp⟩
  case copyRect =>
    split at h
    · rename_i hb
      obtain ⟨rfl, rfl⟩ := Pc.exec.inj h
      exact ⟨hsettled (by decide) hb.2, by simp⟩
    · cases h
  case native =>
    obtain ⟨rfl, rfl⟩ := Pc.exec.inj h
    split
    · rename_i hb
      exact ⟨hsettled le_rfl hb, fun _ => rfl⟩
    · rename_i hb
      exact ⟨hqueued, by simp [hb]⟩
  case marker | barrier =>
    split at h
    · rename_i hb
      obtain ⟨rfl, rfl⟩ := Pc.exec.inj h
      exact ⟨hsettled le_rfl hb, fun _ => rfl⟩
    · cases h

/-- After the check a call executes the command, queues it, or gives up. -/
theorem afterCheck_cases (s : State) (e : ℕ) (st : ℤ) :
    (∃ t ignore enqueue, afterCheck s e st = .exec (.start t ignore) enqueue) ∨
      afterCheck s e st = .enqueue ∨ afterCheck s e st = .failed := by
  simp only [afterCheck]
  split
  case h_1 => exact .inr (.inr rfl)
  all_goals
    first
    | exact .inl ⟨_, _, _, rfl⟩
    | split
      · exact .inl ⟨_, _, _, rfl⟩
      · first
        | exact .inl ⟨_, _, _, rfl⟩
        | exact .inr (.inl rfl)

theorem afterCheck_start {e : ℕ} {st : ℤ} {x : Exec} {enqueue : Bool}
    (h : afterCheck s e st = .exec x enqueue) : ∃ t ignore, x = .start t ignore := by
  rcases afterCheck_cases s e st with ⟨t, ignore, _, h'⟩ | h' | h'
  · exact ⟨t, ignore, (Pc.exec.inj (h'.symm.trans h)).1.symm⟩
  all_goals exact absurd (h'.symm.trans h) (by simp)

theorem insertBarrier_inv (hs : Inv s) (e : ℕ) : Inv (insertBarrier s e) := by
  unfold insertBarrier
  split
  · exact hs.setQueue _ _ (hs.queue _).enqueued (hs.queue _).worker
  · exact hs

theorem insertBarrier_event (s : State) (e : ℕ) : (insertBarrier s e).event = s.event := by
  unfold insertBarrier
  split <;> rfl

theorem proceed_inv (hs : Inv s) {e : ℕ} {st : ℤ} (hpc : (s.event e).pc = .checked st) :
    Inv (proceed s e st) := by
  have hs' := insertBarrier_inv hs e
  have hev := insertBarrier_event s e
  have hnot := hs.not_user (e := e) (by simp [hpc]) (by simp [hpc])
  have he : e < (insertBarrier s e).eventNum :=
    hs'.lt_eventNum (by rw [hev, hpc]; simp)
  have hall : st = CL_COMPLETE → AllComplete s e := fun h =>
    (hs.event e).checked (h ▸ hpc)
  unfold proceed
  have hcases := afterCheck_cases s e st
  refine hs'.setPc he ?_ ?_ ?_ (fun x enqueue h => ?_) ?_ ?_ ?_
  · rcases hcases with ⟨t, i, b, h⟩ | h | h <;> simp [h]
  · rcases hcases with ⟨t, i, b, h⟩ | h | h <;> simp [h]
  · rcases hcases with ⟨t, i, b, h⟩ | h | h <;> simp [h]
  · obtain ⟨hx, ht⟩ := afterCheck_spec hall h
    refine ⟨hx.mono (fun e' _ => by rw [hev]) ?_, ht⟩
    unfold SameCommand
    rw [hev]
    exact ⟨rfl, rfl⟩
  · rw [hev]
    exact fun h => absurd h hnot
  · rcases hcases with ⟨t, i, b, h⟩ | h | h <;> simp [h]
  · unfold Listed
    rw [hev, hpc]
    simp

theorem afterExec_cases (err : ℤ) (enqueue : Bool) :
    afterExec err enqueue = .failed ∨ afterExec err enqueue = .enqueue ∨
      afterExec err enqueue = .returned ∧ enqueue = false := by
  unfold afterExec
  split
  · exact .inl rfl
  · split
    · exact .inr (.inl rfl)
    · exact .inr (.inr ⟨rfl, by simp_all⟩)

theorem execInCall_inv (hs : Inv s) {e : ℕ} {x : Exec} {enqueue : Bool} {ret : ℤ}
    (hpc : (s.event e).pc = .exec x enqueue) (hret : ret ≤ CL_SUCCESS) :
    Inv (execInCall s e ret x enqueue) := by
  have he : e < s.eventNum := hs.lt_eventNum (by simp [hpc])
  have hnot := hs.not_user (e := e) (by simp [hpc]) (by simp [hpc])
  obtain ⟨hok, htarget⟩ := (hs.event e).exec x enqueue hpc
  have hspec := exec_spec (hs.event e).core hok hret
  have hs1 := hs.touch he hspec.touches hspec.core (by simp [hpc]) (by simp [hpc]) hspec.calls
  have hk1 : ((cl_event_exec s e ret x).1.event e).kind ≠ .user := by
    rwa [hspec.touches.kind]
  have hpc1 : ¬ Listed (cl_event_exec s e ret x).1 e := by
    unfold Listed
    rw [hspec.touches.pc, hpc]
    simp
  have he1 : e < (cl_event_exec s e ret x).1.eventNum := by
    rwa [hspec.touches.eventNum]
  unfold execInCall
  rcases hr : cl_event_exec s e ret x with ⟨s1, x' | v⟩
  · rw [hr] at hs1 hk1 hpc1 he1
    refine hs1.setPc he1 (by simp) (by simp) (by simp) (fun y b h => ?_)
      (fun h => absurd h hk1) (by simp) (fun h => absurd h hpc1)
    obtain ⟨rfl, rfl⟩ := Pc.exec.inj h
    have hgo := hspec.goes_on x' (by rw [hr])
    rw [hr] at hgo
    exact ⟨hgo.1, fun h => hgo.2 _ (htarget h)⟩
  · rw [hr] at hs1 hk1 hpc1 he1
    have hcases := afterExec_cases v enqueue
    refine hs1.setPc he1 ?_ ?_ ?_ ?_ (fun h => absurd h hk1) (fun h _ => ?_)
      (fun h => absurd h hpc1)
    · rcases hcases with h | h | ⟨h, -⟩ <;> simp [h]
    · rcases hcases with h | h | ⟨h, -⟩ <;> simp [h]
    · rcases hcases with h | h | ⟨h, -⟩ <;> simp [h]
    · rcases hcases with h | h | ⟨h, -⟩ <;> simp [h]
    · -- the call returns without queueing only if it was to complete the command
      rcases hcases with h' | h' | ⟨-, henq⟩
      · exact absurd h (by simp [h'])
      · exact absurd h (by simp [h'])
      · have := hspec.returns v (by rw [hr]) (htarget henq)
        rwa [hr] at this

theorem enqueue_inv (hs : Inv s) {e : ℕ} (hpc : (s.event e).pc = .enqueue) :
    Inv (cl_command_queue_enqueue_event s e) := by
  have he : e < s.eventNum := hs.lt_eventNum (by simp [hpc])
  have hnot := hs.not_user (e := e) (by simp [hpc]) (by simp [hpc])
  -- the same two changes in the other order
  have hs1 : Inv (s.setPc e .queued) := by
    refine hs.setPc he (by simp) (by simp) (by simp) (by simp) (fun h => absurd h hnot) (by simp)
      (by simp)
  have hself : ((s.setPc e .queued).event e).pc = .queued := by
    simp [State.setPc, State.setEvent]
  refine hs1.setQueue (s.event e).queue _ ?_ (hs1.queue _).worker
  intro e' h
  rcases List.mem_append.mp h with h | h
  · exact (hs1.queue (s.event e).queue).enqueued e' h
  · rw [List.mem_singleton.mp h]
    exact .inl hself

theorem collect_inv (hs : Inv s) {q : ℕ} {picked : List ℕ} : Inv (collect s q picked) := by
  have hready : ∀ e ∈ scan s q picked, e ∈ (s.queue q).enqueued_events ∧ Settled s e := by
    intro e h
    unfold scan at h
    simp only at h
    split at h
    · obtain ⟨hmem, hcond⟩ := List.mem_filter.mp h
      have hr : readyNow s e = true := by simpa using (of_decide_eq_true hcond).2
      exact ⟨hmem, (hs.event e).core.is_ready_nonpos.mp (by simpa [readyNow] using hr)⟩
    · have hr := List.mem_takeWhile_imp h
      exact ⟨List.takeWhile_subset _ h,
        (hs.event e).core.is_ready_nonpos.mp (by simpa [readyNow] using hr)⟩
  have hlisted : ∀ e ∈ scan s q picked, Listed s e ∧ Settled s e := fun e h =>
    ⟨(hs.queue q).enqueued e (hready e h).1, (hready e h).2⟩
  refine hs.setQueue q _ ?_ ⟨?_, by simp, by simp⟩
  · intro e h
    refine (hs.queue q).enqueued e ?_
    simp only at h
    split at h
    · exact (List.mem_filter.mp h).1
    · exact List.dropWhile_subset _ h
  · intro e h
    rcases List.mem_append.mp h with h | h
    · split at h
      · exact hlisted e h
      · cases h
    · exact hlisted e h

/-- One step of the worker on the event `e` at the head of its list. -/
theorem execInWorker_inv (hs : Inv s) {q e : ℕ} {ret : ℤ} {x : Exec} {submit complete : List ℕ}
    {rest : Worker} {pc : Pc} (hret : ret ≤ CL_SUCCESS)
    (hw : WorkerOk s (.busy (some x) submit complete)) (hrest : WorkerOk s rest)
    (hhead : (∃ es, submit = e :: es) ∨ submit = [] ∧ ∃ es, complete = e :: es)
    (hpc : pc = .queued ∨ pc = .finished ∧ submit = []) :
    Inv (execInWorker s q e ret x submit complete rest pc) := by
  have hmem : e ∈ submit ++ complete := by
    rcases hhead with ⟨es, rfl⟩ | ⟨rfl, es, rfl⟩ <;> simp
  have hok : ExecOk s e x := by
    rcases hhead with ⟨es, h⟩ | ⟨h, es, h'⟩
    · exact hw.2.1 e es x h rfl
    · exact (hw.2.2 e es x h h' rfl).1
  have htarget : submit = [] → x.Targets CL_COMPLETE := by
    intro h
    rcases hhead with ⟨es, h'⟩ | ⟨-, es, h'⟩
    · exact absurd (h.symm.trans h') (by simp)
    · exact (hw.2.2 e es x h h' rfl).2
  have hlisted := (hw.1 e hmem).1
  have hne : (s.event e).pc ≠ .failed ∧ (s.event e).pc ≠ .entered ∧
      (s.event e).pc ≠ .created ∧ (s.event e).pc ≠ .returned := by
    rcases hlisted with h | h <;> simp [h]
  have he : e < s.eventNum := hs.lt_eventNum hne.1
  have hnot := hs.not_user hne.2.2.2 hne.1
  have hspec := exec_spec (hs.event e).core hok hret
  have hs1 := hs.touch he hspec.touches hspec.core hne.2.1 hne.2.2.1 hspec.calls
  have hl1 : ∀ e', Listed s e' → Listed (cl_event_exec s e ret x).1 e' ∧
      SameCommand s (cl_event_exec s e ret x).1 e' := fun e' h => by
    refine ⟨?_, hspec.touches.same e'⟩
    unfold Listed
    rw [hspec.touches.pc]
    exact h
  unfold execInWorker setWorker
  rcases hr : cl_event_exec s e ret x with ⟨s1, x' | v⟩
  · have hgo := hspec.goes_on x' (by rw [hr])
    have hw1 := hw.mono hspec.touches.evolves hl1
    rw [hr] at hs1 hgo hw1
    refine hs1.setQueue q _ (hs1.queue q).enqueued ⟨hw1.1, ?_, ?_⟩
    · intro e' es y hsub hy
      obtain rfl := Option.some_inj.mp hy
      rcases hhead with ⟨es', h⟩ | ⟨h, -⟩
      · obtain ⟨rfl, -⟩ := List.cons_eq_cons.mp (h.symm.trans hsub)
        exact hgo.1
      · exact absurd (h.symm.trans hsub) (by simp)
    · intro e' es y hsub hcomp hy
      obtain rfl := Option.some_inj.mp hy
      rcases hhead with ⟨es', h⟩ | ⟨-, es', h⟩
      · exact absurd (hsub.symm.trans h) (by simp)
      · obtain ⟨rfl, -⟩ := List.cons_eq_cons.mp (h.symm.trans hcomp)
        exact ⟨hgo.1, hgo.2 _ (htarget hsub)⟩
  · have hw1 := hrest.mono hspec.touches.evolves hl1
    have hkind := hspec.touches.kind e
    have hnum := hspec.touches.eventNum
    have hover : submit = [] → (s1.event e).status ≤ CL_COMPLETE := fun h => by
      have := hspec.returns v (by rw [hr]) (htarget h)
      rwa [hr] at this
    rw [hr] at hs1 hw1 hkind hnum
    have hs2 : Inv (s1.setPc e pc) := by
      refine hs1.setPc (hnum ▸ he) ?_ ?_ ?_ ?_ ?_ (fun h _ => ?_) (fun _ => hpc.imp_right And.left)
      · rcases hpc with h | ⟨h, -⟩ <;> simp [h]
      · rcases hpc with h | ⟨h, -⟩ <;> simp [h]
      · rcases hpc with h | ⟨h, -⟩ <;> simp [h]
      · rcases hpc with h | ⟨h, -⟩ <;> simp [h]
      · rw [hkind]
        exact fun h => absurd h hnot
      · rcases hpc with h' | ⟨-, h'⟩
        · exact absurd h (by simp [h'])
        · exact hover h'
    refine hs2.setQueue q _ (hs2.queue q).enqueued (hw1.mono ?_ fun e' h => ?_)
    · intro e' _
      by_cases h : e' = e
      · subst h
        simp [State.setPc, State.setEvent]
      · simp [State.setPc, State.setEvent, h]
    · unfold Listed SameCommand
      by_cases h' : e' = e
      · subst h'
        simp only [State.setPc, State.setEvent, Function.update_self, and_self, and_true]
        exact hpc.imp_right And.left
      · simp only [State.setPc, State.setEvent, Function.update_of_ne h', and_self, and_true]
        exact h

theorem work_inv (hs : Inv s) {q : ℕ} {ret : ℤ} (hret : ret ≤ CL_SUCCESS)
    (h : work s q ret = some s') : Inv s' := by
  have hw := (hs.queue q).worker
  have hset : ∀ w, WorkerOk s w → Inv (setWorker s q w) := fun w hw =>
    hs.setQueue q _ (hs.queue q).enqueued hw
  unfold work at h
  split at h
  · cases h
  · rename_i e submit complete hq
    rw [Option.some_inj] at h
    rw [hq] at hw
    refine h ▸ hset _ ⟨hw.1, fun e' es x hsub hx => ?_, fun e' es x hsub => ?_⟩
    · obtain ⟨rfl, rfl⟩ := List.cons_eq_cons.mp hsub
      obtain rfl := Option.some_inj.mp hx
      exact ⟨by decide, .inr (hw.1 e (by simp)).2⟩
    · cases hsub
  · rename_i e complete hq
    rw [Option.some_inj] at h
    rw [hq] at hw
    refine h ▸ hset _ ⟨hw.1, fun e' es x hsub => absurd hsub (by simp),
      fun e' es x _ hcomp hx => ?_⟩
    obtain ⟨rfl, rfl⟩ := List.cons_eq_cons.mp hcomp
    obtain rfl := Option.some_inj.mp hx
    exact ⟨⟨le_rfl, .inr (hw.1 e (by simp)).2⟩, rfl⟩
  · rw [Option.some_inj] at h
    exact h ▸ hset _ trivial
  · rename_i x e submit complete hq
    rw [Option.some_inj] at h
    rw [hq] at hw
    refine h ▸ execInWorker_inv hs hret hw ⟨fun e' he' => hw.1 e' ?_, by simp, by simp⟩
      (.inl ⟨submit, rfl⟩) (.inl rfl)
    simp only [List.cons_append, List.mem_cons]
    exact .inr he'
  · rename_i x e complete hq
    rw [Option.some_inj] at h
    rw [hq] at hw
    refine h ▸ execInWorker_inv hs hret hw ⟨fun e' he' => hw.1 e' ?_, by simp, by simp⟩
      (.inr ⟨rfl, complete, rfl⟩) (.inr ⟨rfl, rfl⟩)
    simp only [List.nil_append, List.mem_cons] at he' ⊢
    exact .inr he'
  · cases h

theorem next_inv {a : Action} (h : next s a = some s') (hs : Inv s) : Inv s' := by
  cases a
  all_goals simp only [next, Option.ite_none_right_eq_some, Option.some_inj] at h
  case createUser =>
    refine h ▸ hs.add ?_ rfl (.inr ⟨rfl, rfl, rfl⟩)
    show CL_RUNNING < newStatus true
    decide
  case setUser e st => exact h.2 ▸ setUser_inv hs h.1.1 h.1.2.1
  case call q kind wait => exact h.2 ▸ enter_inv hs h.1.1
  case callAll q kind =>
    refine h.2 ▸ enter_inv hs ?_
    rcases h.1.1 with rfl | rfl <;> simp
  case callNext prev wait => exact h.2 ▸ enter_inv hs (by simp)
  case create e => exact h.2 ▸ create_inv hs h.1
  case check e => exact h.2 ▸ check_inv hs h.1
  case abort e =>
    refine h.2 ▸ hs.setPc (hs.lt_eventNum (by simp [h.1])) (by simp) (by simp) (by simp) (by simp)
      (by simp) (by simp) (by simp [Listed, h.1])
  case proceed e =>
    split at h
    · rename_i hpc
      rw [Option.some_inj] at h
      exact h ▸ proceed_inv hs hpc
    · cases h
  case exec e ret =>
    split at h
    · rename_i hpc
      simp only [Option.ite_none_right_eq_some, Option.some_inj] at h
      exact h.2 ▸ execInCall_inv hs hpc h.1.1
    · cases h
  case enqueue e => exact h.2 ▸ enqueue_inv hs h.1
  case collect q picked => exact h.2 ▸ collect_inv hs
  case work q ret => exact work_inv hs h.1.1 h.2
  case finish =>
    split at h
    · cases h
    · rw [Option.some_inj] at h
      exact h ▸ hs.of_same rfl rfl rfl rfl

theorem run_inv {outOfOrder : ℕ → Bool} {as : List Action}
    (h : exec next (init outOfOrder) as = some s) : Inv s :=
  exec_invariant next_inv h (init_inv outOfOrder)

end Steps

/-! ### The result -/

/-- **Dependency safety.**  In every state of every run, with any number of queues,
calls and workers: an event at `CL_RUNNING` or `CL_COMPLETE` has all its
dependencies at `CL_COMPLETE`; so has every command that has acted, but for the
submission of a map or GL command; and if a dependency has ended with an error, the
event does not get to `CL_RUNNING` or `CL_COMPLETE`, its command does not act, but
for that submission, and once its call has returned and no worker has it any more
its status is an error too. -/
theorem dependency_safety (outOfOrder : ℕ → Bool) (as : List Action) (s : State)
    (hrun : exec next (init outOfOrder) as = some s) :
    (∀ e, (s.event e).status = CL_RUNNING ∨ (s.event e).status = CL_COMPLETE →
      ∀ d ∈ (s.event e).deps, (s.event d).status = CL_COMPLETE) ∧
    (∀ e st, (e, st) ∈ s.calls → (st = CL_SUBMITTED ∧ (s.event e).kind.early) ∨
      ∀ d ∈ (s.event e).deps, (s.event d).status = CL_COMPLETE) ∧
    ∀ e, ∀ d ∈ (s.event e).deps, (s.event d).status < CL_COMPLETE →
      (s.event e).status ≠ CL_RUNNING ∧ (s.event e).status ≠ CL_COMPLETE ∧
      (∀ st, (e, st) ∈ s.calls → st = CL_SUBMITTED ∧ (s.event e).kind.early) ∧
      ((s.event e).pc = .returned ∨ (s.event e).pc = .finished →
        (s.event e).status < CL_COMPLETE) := by
  have hs := run_inv hrun
  have hstarted : ∀ e, (s.event e).status = CL_RUNNING ∨ (s.event e).status = CL_COMPLETE →
      AllComplete s e := by
    rintro e (h | h)
    · exact (hs.event e).core.started (by rw [h]; decide) (by rw [h])
    · exact (hs.event e).core.started (by rw [h]) (by rw [h]; decide)
  refine ⟨hstarted, fun e st h => ((hs.calls (e, st) h).2.2).symm, fun e d hd hneg => ?_⟩
  have hnot : ¬ AllComplete s e := Doomed.not_allComplete ⟨d, hd, hneg⟩
  refine ⟨fun h => hnot (hstarted e (.inl h)), fun h => hnot (hstarted e (.inr h)),
    fun st h => (hs.calls (e, st) h).2.2.resolve_left hnot, fun hpc => ?_⟩
  have huser : (s.event e).kind ≠ .user := fun hk => by
    rw [((hs.event e).user hk).1] at hd
    cases hd
  refine lt_of_le_of_ne ((hs.event e).final hpc huser) fun h => hnot (hstarted e (.inr h))

/-- A transfer that waits for a user event and is done by the worker once that event
is complete. -/
def transferRun : List Action :=
  [Action.createUser, .call 0 .transfer [0], .create 1, .check 1, .proceed 1] ++
    List.replicate 3 (Action.exec 1 0) ++
    [Action.enqueue 1, .setUser 0 CL_COMPLETE, .collect 0 []] ++
    List.replicate 9 (Action.work 0 0)

theorem dependency_safety_transferRun :
    ∃ s, exec next (init fun _ => false) transferRun = some s ∧ (1, CL_COMPLETE) ∈ s.calls ∧
      (s.event 1).deps = [0] ∧ (s.event 0).status = CL_COMPLETE := by
  refine ⟨_, rfl, by decide, by decide, ?_⟩
  have h := (dependency_safety (fun _ => false) transferRun _ rfl).2.1 1 CL_COMPLETE (by decide)
  exact h.resolve_left (by decide) 0 (by decide)

/-- A map that waits for a user event: it is submitted at once. -/
def mapRun : List Action :=
  [Action.createUser, .call 0 .map [0], .create 1, .check 1, .proceed 1] ++
    List.replicate 5 (Action.exec 1 0)

/-- A transfer enqueued after its dependency has failed. -/
def failedRun : List Action :=
  [.createUser, .setUser 0 (-1), .call 0 .transfer [0], .create 1, .check 1]

/-- The map acts although its dependency is not complete; the call of the transfer
returns an error and leaves the status of its event where it was. -/
theorem early_map_and_failed_call :
    (∃ s, exec next (init fun _ => false) mapRun = some s ∧ (1, CL_SUBMITTED) ∈ s.calls ∧
      (s.event 1).deps = [0] ∧ (s.event 0).status = CL_SUBMITTED) ∧
    ∃ s, exec next (init fun _ => false) failedRun = some s ∧ (s.event 1).deps = [0] ∧
      (s.event 0).status < CL_COMPLETE ∧ (s.event 1).pc = .failed ∧
      (s.event 1).status = CL_EVENT_STATE_UNKNOWN := by
  refine ⟨⟨_, rfl, ?_, ?_, ?_⟩, _, rfl, ?_, ?_, ?_, ?_⟩ <;> decide

end Runtime.CommandQueue
