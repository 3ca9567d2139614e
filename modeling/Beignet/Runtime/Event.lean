/-
The event object: execution status and user callbacks (`cl_event.c`).

A state machine at the granularity of the event lock.  Any number of threads
call `cl_event_set_status` and `cl_event_set_callback`; each section under
`CL_OBJECT_LOCK(event)` is one action, and each user callback, which runs with
the lock released, is one action of its own:

* `Action.setStatus` — entry of `cl_event_set_status` up to the first unlock;
* `Action.runCallback` — one turn of `list_for_each_safe` over the private list;
* `Action.relock` — lock again, merge the uncalled callbacks back, decide the
  `while (status != event->status)` test and either take the list again or leave;
* `Action.setCallback` / `Action.notifyNow` — `cl_event_set_callback` and the
  immediate call it makes after unlocking.

A callback may itself call into the event; such a nested call is the call of
another thread here, which only adds interleavings.  A failing `assert` stops the
process, so a run of an asserting build is a prefix of a run of the model.

The fields `registered` and `invoked` are a history of what was asked for and what
was called; no function reads them.
-/
import Beignet.Lib.Lists
import Beignet.Lib.Transition

namespace Runtime

abbrev CL_COMPLETE : ℤ := 0
abbrev CL_RUNNING : ℤ := 1
abbrev CL_SUBMITTED : ℤ := 2
abbrev CL_QUEUED : ℤ := 3
abbrev CL_EVENT_STATE_UNKNOWN : ℤ := 4

abbrev CL_SUCCESS : ℤ := 0
abbrev CL_INVALID_OPERATION : ℤ := -59

/-- The status `cl_event_new` gives a fresh event. -/
def newStatus (user : Bool) : ℤ := if user then CL_SUBMITTED else CL_EVENT_STATE_UNKNOWN

/-- The two guards of `cl_event_set_status` and its assignment: `none` when the
call is refused with `CL_INVALID_OPERATION`. -/
def assignStatus (cur status : ℤ) : Option ℤ :=
  if cur ≤ CL_COMPLETE then none
  else if status ≥ cur then none
  else some status

theorem assignStatus_eq_some {cur status st : ℤ} :
    assignStatus cur status = some st ↔ CL_COMPLETE < cur ∧ status < cur ∧ st = status := by
  unfold assignStatus
  split
  · constructor
    · intro h
      cases h
    · rintro ⟨h, -, -⟩
      omega
  · split
    · constructor
      · intro h
        cases h
      · rintro ⟨-, h, -⟩
        omega
    · rw [Option.some_inj]
      constructor
      · rintro rfl
        exact ⟨by omega, by omega, rfl⟩
      · rintro ⟨-, -, rfl⟩
        rfl

namespace Event

/-- `_cl_event_user_callback`; `id` stands for the address of the node. -/
structure Callback where
  id : ℕ
  status : ℤ
  deriving DecidableEq

/-- One call of `pfn_notify`: the status it was given and the status of the event
at that moment. -/
structure Invocation where
  cb : Callback
  passed : ℤ
  current : ℤ
  deriving DecidableEq

/-- Where a thread stands. -/
inductive Thread where
  /-- Outside both functions; `ret` is what its last call returned. -/
  | idle (ret : ℤ)
  /-- In the unlocked part of the `do` loop of `cl_event_set_status`: the local
  `status` and the private list, split at the cursor of `list_for_each_safe`. -/
  | looping (status : ℤ) (kept todo : List Callback)
  /-- In `cl_event_set_callback` after the unlock with `exec_imm` set. -/
  | immediate (cb : Callback)

/-- The callbacks only this thread can reach. -/
def Thread.held : Thread → List Callback
  | .idle _ => []
  | .looping _ kept todo => kept ++ todo
  | .immediate cb => [cb]

def Thread.isIdle : Thread → Bool
  | .idle _ => true
  | _ => false

/-- An event, its callbacks and the threads that work on it. -/
structure State where
  status : ℤ
  callbacks : List Callback
  threads : List Thread
  registered : List Callback
  invoked : List Invocation

/-- A call, or a step of a thread. -/
inductive Action where
  | setStatus (t : ℕ) (status : ℤ)
  | runCallback (t : ℕ)
  | relock (t : ℕ)
  | setCallback (t : ℕ) (exec_type : ℤ)
  | notifyNow (t : ℕ)

/-- An action that continues a call already made. -/
def Action.continues : Action → Bool
  | .setStatus _ _ | .setCallback _ _ => false
  | _ => true

/-- A fresh event with `n` threads around it. -/
def newEvent (user : Bool) (n : ℕ) : State where
  status := newStatus user
  callbacks := []
  threads := List.replicate n (.idle CL_SUCCESS)
  registered := []
  invoked := []

/-- `cl_event_set_status` up to the first unlock. -/
def set_status (s : State) (t : ℕ) (status : ℤ) : State :=
  match assignStatus s.status status with
  | none => { s with threads := s.threads.set t (.idle CL_INVALID_OPERATION) }
  | some st =>
    if s.callbacks.isEmpty then
      { s with status := st, threads := s.threads.set t (.idle CL_SUCCESS) }
    else
      { s with status := st, callbacks := [],
               threads := s.threads.set t (.looping st [] s.callbacks) }

/-- The body of `list_for_each_safe`: skip the callback or call it. -/
def runCallback (s : State) (t : ℕ) (status : ℤ) (kept : List Callback) (cb : Callback)
    (todo : List Callback) : State :=
  if cb.status < status then
    { s with threads := s.threads.set t (.looping status (kept ++ [cb]) todo) }
  else
    { s with threads := s.threads.set t (.looping status kept todo)
             invoked := s.invoked ++ [⟨cb, status, s.status⟩] }

/-- Lock again after the callbacks: `list_merge`, then the loop test. -/
def relock (s : State) (t : ℕ) (status : ℤ) (kept : List Callback) : State :=
  if status ≠ s.status then
    { s with callbacks := []
             threads := s.threads.set t (.looping s.status [] (s.callbacks ++ kept)) }
  else
    { s with callbacks := s.callbacks ++ kept, threads := s.threads.set t (.idle CL_SUCCESS) }

/-- `cl_event_set_callback` up to the unlock. -/
def set_callback (s : State) (t : ℕ) (exec_type : ℤ) : State :=
  let cb : Callback := ⟨s.registered.length, exec_type⟩
  if s.status > exec_type then
    { s with callbacks := s.callbacks ++ [cb], registered := s.registered ++ [cb]
             threads := s.threads.set t (.idle CL_SUCCESS) }
  else
    { s with registered := s.registered ++ [cb], threads := s.threads.set t (.immediate cb) }

/-- The immediate call of `cl_event_set_callback`; `event->status` is read again. -/
def notifyNow (s : State) (t : ℕ) (cb : Callback) : State :=
  { s with threads := s.threads.set t (.idle CL_SUCCESS)
           invoked := s.invoked ++ [⟨cb, s.status, s.status⟩] }

/-- One action of one thread; `none` when the thread does not stand where the
action starts. -/
def next (s : State) : Action → Option State
  | .setStatus t status =>
    match s.threads[t]? with
    | some (.idle _) => some (set_status s t status)
    | _ => none
  | .runCallback t =>
    match s.threads[t]? with
    | some (.looping status kept (cb :: todo)) => some (runCallback s t status kept cb todo)
    | _ => none
  | .relock t =>
    match s.threads[t]? with
    | some (.looping status kept []) => some (relock s t status kept)
    | _ => none
  | .setCallback t exec_type =>
    match s.threads[t]? with
    | some (.idle _) => some (set_callback s t exec_type)
    | _ => none
  | .notifyNow t =>
    match s.threads[t]? with
    | some (.immediate cb) => some (notifyNow s t cb)
    | _ => none

/-! ### What one action can do -/

/-- The ten things an action can do to the state. -/
inductive Step (s : State) : Action → State → Prop
  | refused {t r st} (ht : s.threads[t]? = some (.idle r))
      (hst : s.status ≤ CL_COMPLETE ∨ s.status ≤ st) :
      Step s (.setStatus t st)
        { s with threads := s.threads.set t (.idle CL_INVALID_OPERATION) }
  | assigned {t r st} (ht : s.threads[t]? = some (.idle r))
      (h0 : CL_COMPLETE < s.status) (hst : st < s.status) (hcb : s.callbacks = []) :
      Step s (.setStatus t st)
        { s with status := st, threads := s.threads.set t (.idle CL_SUCCESS) }
  | taken {t r st} (ht : s.threads[t]? = some (.idle r))
      (h0 : CL_COMPLETE < s.status) (hst : st < s.status) :
      Step s (.setStatus t st)
        { s with status := st, callbacks := []
                 threads := s.threads.set t (.looping st [] s.callbacks) }
  | skipped {t st kept cb todo} (ht : s.threads[t]? = some (.looping st kept (cb :: todo)))
      (hcb : cb.status < st) :
      Step s (.runCallback t)
        { s with threads := s.threads.set t (.looping st (kept ++ [cb]) todo) }
  | called {t st kept cb todo} (ht : s.threads[t]? = some (.looping st kept (cb :: todo)))
      (hcb : st ≤ cb.status) :
      Step s (.runCallback t)
        { s with threads := s.threads.set t (.looping st kept todo)
                 invoked := s.invoked ++ [⟨cb, st, s.status⟩] }
  | again {t st kept} (ht : s.threads[t]? = some (.looping st kept [])) (hst : st ≠ s.status) :
      Step s (.relock t)
        { s with callbacks := []
                 threads := s.threads.set t (.looping s.status [] (s.callbacks ++ kept)) }
  | left {t kept} (ht : s.threads[t]? = some (.looping s.status kept [])) :
      Step s (.relock t)
        { s with callbacks := s.callbacks ++ kept
                 threads := s.threads.set t (.idle CL_SUCCESS) }
  | added {t r ty} (ht : s.threads[t]? = some (.idle r)) (hty : ty < s.status) :
      Step s (.setCallback t ty)
        { s with callbacks := s.callbacks ++ [⟨s.registered.length, ty⟩]
                 registered := s.registered ++ [⟨s.registered.length, ty⟩]
                 threads := s.threads.set t (.idle CL_SUCCESS) }
  | postponed {t r ty} (ht : s.threads[t]? = some (.idle r)) (hty : s.status ≤ ty) :
      Step s (.setCallback t ty)
        { s with registered := s.registered ++ [⟨s.registered.length, ty⟩]
                 threads := s.threads.set t (.immediate ⟨s.registered.length, ty⟩) }
  | notified {t cb} (ht : s.threads[t]? = some (.immediate cb)) :
      Step s (.notifyNow t)
        { s with threads := s.threads.set t (.idle CL_SUCCESS)
                 invoked := s.invoked ++ [⟨cb, s.status, s.status⟩] }

theorem set_status_step {s : State} {t : ℕ} {r st : ℤ} (ht : s.threads[t]? = some (.idle r)) :
    Step s (.setStatus t st) (set_status s t st) := by
  unfold set_status
  rcases h : assignStatus s.status st with _ | st'
  · refine .refused ht ?_
    by_contra hc
    push Not at hc
    have := assignStatus_eq_some.mpr ⟨hc.1, hc.2, rfl⟩
    rw [h] at this
    cases this
  · obtain ⟨h0, hlt, rfl⟩ := assignStatus_eq_some.mp h
    by_cases hcb : s.callbacks = []
    · simp only [hcb, List.isEmpty_nil, if_true]
      have := Step.assigned ht h0 hlt hcb
      simpa [hcb] using this
    · simp only [List.isEmpty_iff, hcb, if_false]
      exact .taken ht h0 hlt

theorem next_step {s s' : State} {a : Action} (h : next s a = some s') : Step s a s' := by
  cases a with
  | setStatus t st =>
    simp only [next] at h
    split at h
    · rename_i ht
      rw [Option.some_inj] at h
      exact h ▸ set_status_step ht
    · cases h
  | runCallback t =>
    simp only [next] at h
    split at h
    · rename_i st kept cb todo ht
      rw [Option.some_inj] at h
      subst h
      unfold runCallback
      split
      · exact .skipped ht ‹_›
      · exact .called ht (by omega)
    · cases h
  | relock t =>
    simp only [next] at h
    split at h
    · rename_i st kept ht
      rw [Option.some_inj] at h
      subst h
      unfold relock
      split
      · exact .again ht ‹_›
      · rename_i hst
        rw [not_not] at hst
        exact .left (hst ▸ ht)
    · cases h
  | setCallback t ty =>
    simp only [next] at h
    split at h
    · rename_i ht
      rw [Option.some_inj] at h
      subst h
      unfold set_callback
      simp only
      split
      · exact .added ht (by omega)
      · exact .postponed ht (by omega)
    · cases h
  | notifyNow t =>
    simp only [next] at h
    split at h
    · rename_i ht
      rw [Option.some_inj] at h
      exact h ▸ .notified ht
    · cases h

/-! ### The status -/

/-- The status goes down, and stays where it is once it is at most `CL_COMPLETE`. -/
def StatusDescends (s s' : State) : Prop :=
  s'.status ≤ s.status ∧ (s.status ≤ CL_COMPLETE → s'.status = s.status)

theorem step_statusDescends {s s' : State} {a : Action} (h : Step s a s') :
    StatusDescends s s' := by
  cases h with
  | assigned _ h0 hst | taken _ h0 hst => exact ⟨hst.le, fun h => absurd h (by omega)⟩
  | _ => exact ⟨le_rfl, fun _ => rfl⟩

theorem exec_statusDescends {s s' : State} {as : List Action}
    (h : Transition.exec next s as = some s') : StatusDescends s s' := by
  refine Transition.exec_relates (R := StatusDescends) (fun s => ⟨le_rfl, fun _ => rfl⟩) ?_
    (fun hs => step_statusDescends (next_step hs)) h
  rintro s m t ⟨h1, h2⟩ ⟨h3, h4⟩
  refine ⟨h3.trans h1, fun hs => ?_⟩
  rw [h4 (by rw [h2 hs]; exact hs), h2 hs]

/-! ### The invariant on callbacks -/

/-- What the position of a thread says about the status `cur` of the event. -/
def Thread.Ok (cur : ℤ) : Thread → Prop
  | .idle _ => True
  | .looping st kept _ => cur ≤ st ∧ ∀ cb ∈ kept, cb.status < st
  | .immediate cb => cur ≤ cb.status

theorem Thread.Ok.mono {cur cur' : ℤ} (hle : cur' ≤ cur) :
    ∀ {th : Thread}, th.Ok cur → th.Ok cur'
  | .idle _, _ => trivial
  | .looping _ _ _, h => ⟨hle.trans h.1, h.2⟩
  | .immediate _, h => hle.trans h

/-- How often `cb` is kept anywhere: on the event's list, by a thread, or in the
history of calls. -/
def State.copies (s : State) (cb : Callback) : ℕ :=
  s.callbacks.count cb + (s.threads.map fun th => th.held.count cb).sum
    + (s.invoked.map Invocation.cb).count cb

/-- What holds after every action. -/
structure Inv (s : State) : Prop where
  /-- Outside the lock the event's list only has callbacks whose turn has not come. -/
  waiting : ∀ cb ∈ s.callbacks, cb.status < s.status
  threads : ∀ th ∈ s.threads, th.Ok s.status
  history : ∀ i ∈ s.invoked, s.status ≤ i.current ∧ i.current ≤ i.cb.status ∧
    i.passed ≤ i.cb.status
  ids : s.registered.map Callback.id = List.range s.registered.length
  account : ∀ cb, s.copies cb = s.registered.count cb

theorem newEvent_inv (user : Bool) (n : ℕ) : Inv (newEvent user n) := by
  refine ⟨by simp [newEvent], ?_, by simp [newEvent], by simp [newEvent], ?_⟩
  · intro th hth
    rw [(List.mem_replicate.mp hth).2]
    trivial
  · intro cb
    simp [State.copies, newEvent, Thread.held]

/-- Threads stay consistent when the status goes down and one of them moves. -/
theorem threads_set {ths : List Thread} {cur cur' : ℤ} {t : ℕ} {th : Thread}
    (h : ∀ th ∈ ths, th.Ok cur) (hle : cur' ≤ cur) (hth : th.Ok cur') :
    ∀ th' ∈ ths.set t th, th'.Ok cur' := by
  intro th' hmem
  rcases List.mem_or_eq_of_mem_set hmem with hmem | rfl
  · exact (h th' hmem).mono hle
  · exact hth

theorem ids_append {l : List Callback} (ty : ℤ)
    (h : l.map Callback.id = List.range l.length) :
    (l ++ [⟨l.length, ty⟩] : List Callback).map Callback.id
      = List.range (l ++ [⟨l.length, ty⟩] : List Callback).length := by
  simp [h, List.range_succ]

theorem step_inv {s s' : State} {a : Action} (h : Step s a s') (hs : Inv s) : Inv s' := by
  -- `key` is the accounting identity for the thread that moved.
  cases h with
  | refused ht hst =>
    refine ⟨hs.waiting, threads_set hs.threads le_rfl trivial, hs.history, hs.ids, fun cb => ?_⟩
    have key := Lists.sum_map_set (fun th => th.held.count cb) (.idle CL_INVALID_OPERATION) ht
    have := hs.account cb
    simp only [State.copies, Thread.held, List.count_nil] at *
    omega
  | assigned ht h0 hst hcb =>
    refine ⟨by simp [hcb], threads_set hs.threads hst.le trivial, ?_, hs.ids, fun cb => ?_⟩
    · intro i hi
      obtain ⟨h1, h2, h3⟩ := hs.history i hi
      exact ⟨hst.le.trans h1, h2, h3⟩
    · have key := Lists.sum_map_set (fun th => th.held.count cb) (.idle CL_SUCCESS) ht
      have := hs.account cb
      simp only [State.copies, Thread.held, List.count_nil] at *
      omega
  | @taken t r st ht h0 hst =>
    refine ⟨by simp, threads_set hs.threads hst.le ⟨le_rfl, by simp⟩, ?_, hs.ids, fun cb => ?_⟩
    · intro i hi
      obtain ⟨h1, h2, h3⟩ := hs.history i hi
      exact ⟨hst.le.trans h1, h2, h3⟩
    · have key := Lists.sum_map_set (fun th => th.held.count cb) (.looping st [] s.callbacks) ht
      have := hs.account cb
      simp only [State.copies, Thread.held, List.count_nil, List.nil_append] at *
      omega
  | @skipped t st kept cb' todo ht hcb =>
    have hok := hs.threads _ (List.mem_of_getElem? ht)
    refine ⟨hs.waiting, threads_set hs.threads le_rfl ⟨hok.1, ?_⟩, hs.history, hs.ids,
      fun cb => ?_⟩
    · intro c hc
      rcases List.mem_append.mp hc with hc | hc
      · exact hok.2 c hc
      · rw [List.mem_singleton.mp hc]
        exact hcb
    · have key := Lists.sum_map_set (fun th => th.held.count cb)
        (.looping st (kept ++ [cb']) todo) ht
      have := hs.account cb
      simp only [State.copies, Thread.held, List.count_append, List.count_cons,
        List.count_nil] at *
      omega
  | @called t st kept cb' todo ht hcb =>
    have hok := hs.threads _ (List.mem_of_getElem? ht)
    refine ⟨hs.waiting, threads_set hs.threads le_rfl hok, ?_, hs.ids, fun cb => ?_⟩
    · intro i hi
      rcases List.mem_append.mp hi with hi | hi
      · exact hs.history i hi
      · rw [List.mem_singleton.mp hi]
        exact ⟨le_rfl, hok.1.trans hcb, hcb⟩
    · have key := Lists.sum_map_set (fun th => th.held.count cb) (.looping st kept todo) ht
      have := hs.account cb
      simp only [State.copies, Thread.held, List.count_append, List.count_cons,
        List.count_nil, List.map_append, List.map_cons, List.map_nil] at *
      omega
  | @again t st kept ht hst =>
    refine ⟨by simp, threads_set hs.threads le_rfl ⟨le_rfl, by simp⟩, hs.history, hs.ids,
      fun cb => ?_⟩
    have key := Lists.sum_map_set (fun th => th.held.count cb)
      (.looping s.status [] (s.callbacks ++ kept)) ht
    have := hs.account cb
    simp only [State.copies, Thread.held, List.count_append, List.count_nil] at *
    omega
  | @left t kept ht =>
    have hok := hs.threads _ (List.mem_of_getElem? ht)
    refine ⟨?_, threads_set hs.threads le_rfl trivial, hs.history, hs.ids, fun cb => ?_⟩
    · intro c hc
      rcases List.mem_append.mp hc with hc | hc
      · exact hs.waiting c hc
      · exact hok.2 c hc
    · have key := Lists.sum_map_set (fun th => th.held.count cb) (.idle CL_SUCCESS) ht
      have := hs.account cb
      simp only [State.copies, Thread.held, List.count_append, List.count_nil] at *
      omega
  | @added t r ty ht hty =>
    refine ⟨?_, threads_set hs.threads le_rfl trivial, hs.history, ids_append ty hs.ids,
      fun cb => ?_⟩
    · intro c hc
      rcases List.mem_append.mp hc with hc | hc
      · exact hs.waiting c hc
      · rw [List.mem_singleton.mp hc]
        exact hty
    · have key := Lists.sum_map_set (fun th => th.held.count cb) (.idle CL_SUCCESS) ht
      have := hs.account cb
      simp only [State.copies, Thread.held, List.count_append, List.count_nil] at *
      omega
  | @postponed t r ty ht hty =>
    refine ⟨hs.waiting, threads_set hs.threads le_rfl hty, hs.history, ids_append ty hs.ids,
      fun cb => ?_⟩
    have key := Lists.sum_map_set (fun th => th.held.count cb)
      (.immediate ⟨s.registered.length, ty⟩) ht
    have := hs.account cb
    simp only [State.copies, Thread.held, List.count_append, List.count_nil] at *
    omega
  | @notified t cb' ht =>
    have hok : s.status ≤ cb'.status := hs.threads _ (List.mem_of_getElem? ht)
    refine ⟨hs.waiting, threads_set hs.threads le_rfl trivial, ?_, hs.ids, fun cb => ?_⟩
    · intro i hi
      rcases List.mem_append.mp hi with hi | hi
      · exact hs.history i hi
      · rw [List.mem_singleton.mp hi]
        exact ⟨le_rfl, hok, hok⟩
    · have key := Lists.sum_map_set (fun th => th.held.count cb) (.idle CL_SUCCESS) ht
      have := hs.account cb
      simp only [State.copies, Thread.held, List.count_append, List.count_nil,
        List.map_append, List.map_cons, List.map_nil] at *
      omega

theorem exec_inv {user : Bool} {n : ℕ} {s : State} {as : List Action}
    (h : Transition.exec next (newEvent user n) as = some s) : Inv s :=
  Transition.exec_invariant (fun hs => step_inv (next_step hs)) h (newEvent_inv user n)

/-! ### Consequences of the invariant -/

theorem Inv.registered_count {s : State} (hs : Inv s) {cb : Callback} (h : cb ∈ s.registered) :
    s.registered.count cb = 1 := by
  have hnd : (s.registered.map Callback.id).Nodup := by
    rw [hs.ids]
    exact List.nodup_range
  exact List.count_eq_one_of_mem hnd.of_map h

theorem Inv.invoked_count_le {s : State} (hs : Inv s) {cb : Callback} (h : cb ∈ s.registered) :
    (s.invoked.map Invocation.cb).count cb ≤ 1 := by
  have := hs.account cb
  rw [hs.registered_count h, State.copies] at this
  omega

/-- A registered callback has been called, or waits on the event's list for its
turn, or is in the hands of a call in progress. -/
theorem Inv.not_lost {s : State} (hs : Inv s) {cb : Callback} (h : cb ∈ s.registered) :
    cb ∈ s.invoked.map Invocation.cb ∨ (cb ∈ s.callbacks ∧ cb.status < s.status) ∨
      ∃ th ∈ s.threads, cb ∈ th.held := by
  have hacc := hs.account cb
  rw [hs.registered_count h, State.copies] at hacc
  by_contra hno
  push Not at hno
  obtain ⟨h1, h2, h3⟩ := hno
  have h2' : cb ∉ s.callbacks := fun hc => absurd (hs.waiting cb hc) (by have := h2 hc; omega)
  have hsum : (s.threads.map fun th => th.held.count cb).sum = 0 := by
    rw [List.sum_eq_zero_iff]
    intro x hx
    obtain ⟨th, hth, rfl⟩ := List.mem_map.mp hx
    exact List.count_eq_zero.mpr (h3 th hth)
  rw [hsum, List.count_eq_zero.mpr h2', List.count_eq_zero.mpr h1] at hacc
  omega

/-- When no call is in progress every callback whose turn has come was called
exactly once and the others were not called. -/
theorem Inv.quiescent {s : State} (hs : Inv s) (hidle : ∀ th ∈ s.threads, th.isIdle)
    {cb : Callback} (h : cb ∈ s.registered) :
    (s.invoked.map Invocation.cb).count cb = if s.status ≤ cb.status then 1 else 0 := by
  split
  · rename_i hle
    refine le_antisymm (hs.invoked_count_le h) (List.count_pos_iff.mpr ?_)
    rcases hs.not_lost h with h1 | ⟨-, h2⟩ | ⟨th, hth, h3⟩
    · exact h1
    · omega
    · have hi := hidle th hth
      cases th with
      | idle r => simp [Thread.held] at h3
      | looping st kept todo => simp [Thread.isIdle] at hi
      | immediate c => simp [Thread.isIdle] at hi
  · rename_i hlt
    rw [List.count_eq_zero]
    intro hmem
    obtain ⟨i, hi, rfl⟩ := List.mem_map.mp hmem
    obtain ⟨h1, h2, -⟩ := hs.history i hi
    omega

/-! ### Calls in progress come to an end -/

/-- Callbacks not yet called. -/
def State.pending (s : State) : ℕ :=
  s.callbacks.length + (s.threads.map fun th => th.held.length).sum

/-- Steps a thread may still need: one for each callback on its private list, one
to lock again, and a second round over everything pending if the status moved on. -/
def Thread.remaining (cur : ℤ) (pending : ℕ) : Thread → ℕ
  | .idle _ => 0
  | .looping st _ todo => todo.length + 1 + if st ≠ cur then pending + 1 else 0
  | .immediate _ => 1

def State.remaining (s : State) : ℕ :=
  (s.threads.map (Thread.remaining s.status s.pending)).sum

theorem Thread.remaining_mono (cur : ℤ) {p p' : ℕ} (h : p' ≤ p) (th : Thread) :
    th.remaining cur p' ≤ th.remaining cur p := by
  cases th with
  | looping st kept todo =>
    simp only [Thread.remaining]
    split <;> omega
  | _ => simp [Thread.remaining]

/-- The measure drops when one thread's own share drops and nothing new is
registered. -/
theorem remaining_lt {s s' : State} {t : ℕ} {th th' : Thread} (ht : s.threads[t]? = some th)
    (hths : s'.threads = s.threads.set t th') (hst : s'.status = s.status)
    (hp : s'.pending ≤ s.pending)
    (hlt : th'.remaining s.status s'.pending < th.remaining s.status s.pending) :
    s'.remaining < s.remaining := by
  unfold State.remaining
  rw [hths, hst]
  exact Lists.sum_map_set_lt (Thread.remaining_mono s.status hp) ht hlt

theorem step_remaining_lt {s s' : State} {a : Action} (h : Step s a s')
    (ha : a.continues = true) : s'.remaining < s.remaining := by
  cases h with
  | refused | assigned | taken | added | postponed => exact absurd ha (by simp [Action.continues])
  | @skipped t st kept cb todo ht hcb =>
    have key := Lists.sum_map_set (fun th => th.held.length) (.looping st (kept ++ [cb]) todo) ht
    refine remaining_lt ht rfl rfl ?_ ?_ <;>
      simp only [State.pending, Thread.held, Thread.remaining, List.length_append,
        List.length_cons, List.length_nil] at *
    · omega
    · split <;> omega
  | @called t st kept cb todo ht hcb =>
    have key := Lists.sum_map_set (fun th => th.held.length) (.looping st kept todo) ht
    refine remaining_lt ht rfl rfl ?_ ?_ <;>
      simp only [State.pending, Thread.held, Thread.remaining, List.length_append,
        List.length_cons] at *
    · omega
    · split <;> omega
  | @again t st kept ht hst =>
    -- The second round covers at most the pending callbacks.
    have key := Lists.sum_map_set (fun th => th.held.length)
      (.looping s.status [] (s.callbacks ++ kept)) ht
    have key' := Lists.sum_map_set (fun th => th.held.length) (.idle CL_SUCCESS) ht
    refine remaining_lt ht rfl rfl ?_ ?_ <;>
      simp only [State.pending, Thread.held, Thread.remaining, List.length_append,
        List.length_nil, List.nil_append, if_pos hst, ne_eq, not_true_eq_false, if_false] at *
    · omega
    · omega
  | @left t kept ht =>
    have key := Lists.sum_map_set (fun th => th.held.length) (.idle CL_SUCCESS) ht
    refine remaining_lt ht rfl rfl ?_ ?_ <;>
      simp only [State.pending, Thread.held, Thread.remaining, List.length_append,
        List.length_nil] at *
    · omega
    · omega
  | @notified t cb ht =>
    have key := Lists.sum_map_set (fun th => th.held.length) (.idle CL_SUCCESS) ht
    refine remaining_lt ht rfl rfl ?_ ?_ <;>
      simp only [State.pending, Thread.held, Thread.remaining, List.length_nil,
        List.length_cons] at *
    · omega
    · omega

/-- A call in progress is never blocked. -/
theorem exists_continues {s : State} {th : Thread} (h : th ∈ s.threads) (hth : ¬ th.isIdle) :
    ∃ a s', a.continues = true ∧ next s a = some s' := by
  obtain ⟨t, ht⟩ := List.mem_iff_getElem?.mp h
  cases th with
  | idle r => exact absurd rfl hth
  | looping st kept todo =>
    cases todo with
    | nil => exact ⟨.relock t, relock s t st kept, rfl, by simp [next, ht]⟩
    | cons cb todo =>
      exact ⟨.runCallback t, runCallback s t st kept cb todo, rfl, by simp [next, ht]⟩
  | immediate cb => exact ⟨.notifyNow t, notifyNow s t cb, rfl, by simp [next, ht]⟩

/-! ### A callback whose turn has come is called -/

def Action.thread : Action → ℕ
  | .setStatus t _ | .runCallback t | .relock t | .setCallback t _ | .notifyNow t => t

/-- An endless run from `s` in which every call in progress is continued again and
again, whatever other calls are made meanwhile. -/
structure FairRun (s : State) where
  state : ℕ → State
  action : ℕ → Action
  start : state 0 = s
  step : ∀ i, next (state i) (action i) = some (state (i + 1))
  fair : ∀ i t th, (state i).threads[t]? = some th → ¬ th.isIdle →
    ∃ j, i ≤ j ∧ (action j).thread = t

theorem step_other_thread {s s' : State} {a : Action} {t : ℕ} (h : Step s a s')
    (ht : a.thread ≠ t) : s'.threads[t]? = s.threads[t]? := by
  cases h <;> exact List.getElem?_set_ne ht

/-- How far a thread holding `cb` is from calling it: a round at a status above the
type of `cb` has to be finished first. -/
def Thread.distance (cb : Callback) : Thread → ℕ ×ₗ ℕ
  | .looping st _ todo => if st ≤ cb.status then toLex (0, todo.length) else toLex (1, todo.length)
  | _ => toLex (0, 0)

/-- Each step of the thread holding `cb` calls it or comes closer to it. -/
theorem step_distance {s s' : State} {a : Action} {cb : Callback} {th : Thread} (h : Step s a s')
    (hs : Inv s) (hst : s.status ≤ cb.status) (ht : s.threads[a.thread]? = some th)
    (hcb : cb ∈ th.held) :
    cb ∈ s'.invoked.map Invocation.cb ∨
      ∃ th', s'.threads[a.thread]? = some th' ∧ cb ∈ th'.held ∧
        th'.distance cb < th.distance cb := by
  have hlen : a.thread < s.threads.length := (List.getElem?_eq_some_iff.mp ht).choose
  have hidle : ∀ {r : ℤ}, s.threads[a.thread]? ≠ some (.idle r) := by
    intro r hr
    rw [ht, Option.some_inj] at hr
    subst hr
    simp [Thread.held] at hcb
  have hok := hs.threads th (List.mem_of_getElem? ht)
  cases h with
  | refused ht' | assigned ht' | taken ht' | added ht' | postponed ht' => exact absurd ht' hidle
  | @skipped t st kept cb' todo ht' hcb' =>
    obtain rfl : th = _ := Option.some_inj.mp (ht.symm.trans ht')
    refine .inr ⟨_, List.getElem?_set_self hlen, ?_, ?_⟩
    · simpa [Thread.held, or_assoc] using hcb
    · simp only [Thread.distance]
      split <;> simp [Prod.Lex.toLex_lt_toLex]
  | @called t st kept cb' todo ht' hcb' =>
    obtain rfl : th = _ := Option.some_inj.mp (ht.symm.trans ht')
    by_cases heq : cb = cb'
    · subst heq
      exact .inl (by simp)
    · refine .inr ⟨_, List.getElem?_set_self hlen, ?_, ?_⟩
      · simpa [Thread.held, heq] using hcb
      · simp only [Thread.distance]
        split <;> simp [Prod.Lex.toLex_lt_toLex]
  | @again t st kept ht' hne =>
    obtain rfl : th = _ := Option.some_inj.mp (ht.symm.trans ht')
    have hkept : cb ∈ kept := by simpa [Thread.held] using hcb
    have hlt : cb.status < st := hok.2 cb hkept
    refine .inr ⟨_, List.getElem?_set_self hlen, by simp [Thread.held, hkept], ?_⟩
    simp only [Thread.distance, if_pos hst, if_neg (not_le.mpr hlt)]
    simp [Prod.Lex.toLex_lt_toLex]
  | @left t kept ht' =>
    obtain rfl : th = _ := Option.some_inj.mp (ht.symm.trans ht')
    have hkept : cb ∈ kept := by simpa [Thread.held] using hcb
    exact absurd (hok.2 cb hkept) (not_lt.mpr hst)
  | @notified t cb' ht' =>
    obtain rfl : th = _ := Option.some_inj.mp (ht.symm.trans ht')
    have : cb = cb' := by simpa [Thread.held] using hcb
    exact .inl (by simp [this])

section Fair

variable {s : State} (r : FairRun s)

theorem FairRun.inv (hs : Inv s) : ∀ i, Inv (r.state i)
  | 0 => by
    rw [r.start]
    exact hs
  | i + 1 => step_inv (next_step (r.step i)) (FairRun.inv hs i)

theorem FairRun.status_le {i j : ℕ} (hij : i ≤ j) :
    (r.state j).status ≤ (r.state i).status := by
  induction j, hij using Nat.le_induction with
  | base => exact le_rfl
  | succ j _ ih => exact (step_statusDescends (next_step (r.step j))).1.trans ih

/-- A thread in the middle of a call takes its next step from where it stands. -/
theorem FairRun.next_turn {i t : ℕ} {th : Thread} (ht : (r.state i).threads[t]? = some th)
    (hth : ¬ th.isIdle) :
    ∃ j, i ≤ j ∧ (r.action j).thread = t ∧ (r.state j).threads[t]? = some th := by
  classical
  have hex := r.fair i t th ht hth
  obtain ⟨hij, hact⟩ := Nat.find_spec hex
  refine ⟨Nat.find hex, hij, hact, ?_⟩
  -- No step before the first one of `t` moves `t`.
  have hstay : ∀ k, i ≤ k → k ≤ Nat.find hex → (r.state k).threads[t]? = some th := by
    intro k hik
    induction k, hik using Nat.le_induction with
    | base => exact fun _ => ht
    | succ k hik ih =>
      intro hk
      have hne : (r.action k).thread ≠ t := fun h => Nat.find_min hex (by omega) ⟨hik, h⟩
      rw [step_other_thread (next_step (r.step k)) hne]
      exact ih (by omega)
  exact hstay _ hij le_rfl

theorem FairRun.held_called (hs : Inv s) {cb : Callback} {t : ℕ} {th : Thread} {i : ℕ}
    (hst : (r.state i).status ≤ cb.status) (ht : (r.state i).threads[t]? = some th)
    (hcb : cb ∈ th.held) : ∃ j, cb ∈ (r.state j).invoked.map Invocation.cb := by
  induction hd : th.distance cb using WellFoundedLT.induction generalizing th i with
  | _ d ih =>
    subst hd
    have hth : ¬ th.isIdle := by
      cases th with
      | idle r => simp [Thread.held] at hcb
      | looping st kept todo => simp [Thread.isIdle]
      | immediate c => simp [Thread.isIdle]
    obtain ⟨j, hij, rfl, hj⟩ := r.next_turn ht hth
    have hstj : (r.state j).status ≤ cb.status := (r.status_le hij).trans hst
    rcases step_distance (next_step (r.step j)) (r.inv hs j) hstj hj hcb with
      hin | ⟨th', hth', hcb', hlt⟩
    · exact ⟨j + 1, hin⟩
    · exact ih _ hlt ((r.status_le (Nat.le_succ j)).trans hstj) hth' hcb' rfl

/-- In an endless run a registered callback is called once the status has reached
its type. -/
theorem FairRun.called (hs : Inv s) {cb : Callback} (hreg : cb ∈ s.registered)
    (hst : s.status ≤ cb.status) : ∃ j, cb ∈ (r.state j).invoked.map Invocation.cb := by
  rcases hs.not_lost hreg with h1 | ⟨-, h2⟩ | ⟨th, hth, h3⟩
  · exact ⟨0, r.start.symm ▸ h1⟩
  · omega
  · obtain ⟨t, ht⟩ := List.mem_iff_getElem?.mp hth
    have h0 : (r.state 0).threads[t]? = some th := by rw [r.start, ht]
    exact r.held_called hs (i := 0) (by rw [r.start]; exact hst) h0 h3

end Fair

/-! ### The event as a state machine -/

/-- **The law of an event**, for every number of threads and every interleaving of
their calls.  The status descends along the run and freezes at `CL_COMPLETE` or
below.  A callback is called at most once and never while the status is above its
type; it is never lost; and once the calls in progress have returned, which they do
after a bounded number of their own steps, it has been called exactly once if the
status has reached its type and not at all otherwise.  When new calls keep coming it
is still called, provided the calls in progress get their turns. -/
theorem event_state_machine (user : Bool) (n : ℕ) {as : List Action} {s : State}
    (h : Transition.exec next (newEvent user n) as = some s) :
    (∀ bs s', Transition.exec next s bs = some s' →
      s'.status ≤ s.status ∧ (s.status ≤ CL_COMPLETE → s'.status = s.status)) ∧
    (∀ i ∈ s.invoked, i.current ≤ i.cb.status ∧ i.passed ≤ i.cb.status) ∧
    (∀ cb ∈ s.registered,
      (s.invoked.map Invocation.cb).count cb ≤ 1 ∧
      (cb ∈ s.invoked.map Invocation.cb ∨ (cb ∈ s.callbacks ∧ cb.status < s.status) ∨
        ∃ th ∈ s.threads, cb ∈ th.held)) ∧
    (∃ bound, ∀ bs s', (∀ a ∈ bs, a.continues = true) → Transition.exec next s bs = some s' →
      bs.length ≤ bound ∧
      ((∀ a s'', a.continues = true → next s' a ≠ some s'') → ∀ cb ∈ s'.registered,
        (s'.invoked.map Invocation.cb).count cb = if s'.status ≤ cb.status then 1 else 0)) ∧
    (∀ r : FairRun s, ∀ cb ∈ s.registered, s.status ≤ cb.status →
      ∃ j, cb ∈ (r.state j).invoked.map Invocation.cb) := by
  have hinv := exec_inv h
  refine ⟨fun bs s' hb => exec_statusDescends hb, fun i hi => (hinv.history i hi).2,
    fun cb hcb => ⟨hinv.invoked_count_le hcb, hinv.not_lost hcb⟩, ⟨s.remaining,
    fun bs s' hbs hb => ⟨?_, fun hstuck cb hcb => ?_⟩⟩, fun r cb hreg => r.called hinv hreg⟩
  · have := Transition.exec_length_le (I := fun _ => True) (P := fun a => a.continues = true)
      State.remaining (fun _ _ _ => trivial)
      (fun hs ha _ => step_remaining_lt (next_step hs) ha) hb hbs trivial
    omega
  · have hinv' : Inv s' := exec_inv (Transition.exec_append_eq_some.mpr ⟨s, h, hb⟩)
    refine hinv'.quiescent (fun th hth => ?_) hcb
    by_contra hno
    obtain ⟨a, s'', ha, hn⟩ := exists_continues hth hno
    exact hstuck a s'' ha hn

/-- Two threads race on a kernel event: a callback for `CL_COMPLETE` is on the
private list of the thread that moved the event to `CL_RUNNING` when the other one
completes it. -/
def raceTrace : List Action :=
  [.setCallback 0 CL_COMPLETE, .setStatus 0 CL_RUNNING, .setStatus 1 CL_COMPLETE,
    .runCallback 0, .relock 0, .runCallback 0, .relock 0]

/-- The first thread takes a second round and makes the call, once. -/
theorem event_state_machine_race :
    ∃ s, Transition.exec next (newEvent false 2) raceTrace = some s ∧
      s.invoked = [⟨⟨0, CL_COMPLETE⟩, CL_COMPLETE, CL_COMPLETE⟩] ∧
      ∀ cb ∈ s.registered, (s.invoked.map Invocation.cb).count cb ≤ 1 := by
  have hrun : (Transition.exec next (newEvent false 2) raceTrace).isSome = true := by decide
  obtain ⟨s, hs⟩ := Option.isSome_iff_exists.mp hrun
  refine ⟨s, hs, ?_, fun cb hcb => ((event_state_machine false 2 hs).2.2.1 cb hcb).1⟩
  have hlog : (Transition.exec next (newEvent false 2) raceTrace).map State.invoked
      = some [⟨⟨0, CL_COMPLETE⟩, CL_COMPLETE, CL_COMPLETE⟩] := by decide
  rw [hs, Option.map_some, Option.some_inj] at hlog
  exact hlog

end Event

end Runtime
