/-
Command queues, their worker threads and the enqueue calls
(`cl_event.c`, `cl_command_queue.c`, `cl_command_queue_enqueue.c`, `cl_enqueue.c`
and the `clEnqueue…` functions of `cl_api_*.c` and `cl_gl_api.c`).

Any number of API threads run enqueue calls while every queue has its own worker.
An enqueue call owns exactly one event, so the program counter of the call is kept
in the event; a worker keeps its own.  One action is one section under a lock, or
one call of `cl_enqueue_handle`, which runs without any.

Three things are one action although the source takes several locks for them:

* `cl_event_is_ready` looks at one dependency after the other.  A status that is
  not above `CL_COMPLETE` never changes again, so the answer is the one that a
  single look at the moment of the last read gives;
* `cl_event_exec` reads the status of its own event before the dependencies; only
  the thread that runs it changes that status;
* an in-order worker stops at the first event that is not ready, so its scan is
  that of the moment it stops; an out-of-order worker may take any of the events it
  found ready.

A kernel that is flushed at `CL_SUBMITTED` has only been handed to the device.  All
batches go through the one hardware context of the driver, so the device takes them
in the order of their flush, and the handler for `CL_COMPLETE` waits for the batch.

Other blocking calls wait at points where the model may also go on, and a call may
fail for other reasons at `abort`.  The histories `deps`, `before`, `calls` and
`performed` are read by no function.
-/
import Beignet.Runtime.Event

namespace Runtime

/-- What the enqueue functions do with their event, by the path they take after
`cl_event_create`. -/
inductive Kind
  /-- `clCreateUserEvent` -/
  | user
  /-- host transfers, unmap and SVM commands: done in the call, or queued -/
  | transfer
  /-- `clEnqueueMapBuffer`, `clEnqueueMapImage`: submitted in the call in any case,
  to get the address -/
  | map
  /-- `clEnqueueAcquireGLObjects`, `clEnqueueReleaseGLObjects` -/
  | gl
  /-- `clEnqueueNDRangeKernel` -/
  | kernel
  /-- copies and fills that run a built-in kernel -/
  | submit
  /-- `clEnqueueCopyBufferRect` -/
  | copyRect
  | native
  | marker
  | barrier
  deriving DecidableEq

/-- The statuses at which `cl_enqueue_handle` does something. -/
def Kind.acts : Kind → ℤ → Bool
  | .transfer, s | .native, s => s == CL_COMPLETE
  | .map, s | .kernel, s | .submit, s | .copyRect, s => s == CL_SUBMITTED || s == CL_COMPLETE
  | _, _ => false

/-- The status for which `cl_enqueue_handle` performs the side effect of the command,
or hands it to the device: host commands at `CL_COMPLETE`, commands that run on the
device when their batch is flushed. -/
def Kind.effectAt : Kind → Option ℤ
  | .transfer | .native | .map => some CL_COMPLETE
  | .kernel | .submit | .copyRect => some CL_SUBMITTED
  | _ => none

/-- The command runs on the device. -/
def Kind.onDevice : Kind → Bool
  | .kernel | .submit | .copyRect => true
  | _ => false

/-- Commands that are submitted in the call whatever their dependencies. -/
def Kind.early : Kind → Bool
  | .map | .gl => true
  | _ => false

namespace CommandQueue

/-- Where a thread stands in `cl_event_exec`. -/
inductive Exec
  /-- at the start, with `exec_to_status` and `ignore_depends` -/
  | start (target : ℤ) (ignore : Bool)
  /-- a dependency failed: about to give the event this status -/
  | cancel (status : ℤ)
  /-- about to call `cl_enqueue_handle` for the status `s` -/
  | handle (s target : ℤ)
  /-- the handler succeeded: about to set the status `s` -/
  | set (s target : ℤ)
  /-- the handler failed: about to set this status -/
  | fail (status : ℤ)
  /-- the status is final: about to take the event off the barrier list and return -/
  | retire (ret : ℤ)
  deriving DecidableEq

/-- Where the enqueue call of an event stands. -/
inductive Pc
  /-- before `cl_event_create` -/
  | entered
  | created
  /-- after `cl_event_is_ready`, with `e_status` -/
  | checked (status : ℤ)
  /-- in `cl_event_exec`; the flag says whether the event is queued afterwards -/
  | exec (x : Exec) (enqueue : Bool)
  /-- about to call `cl_command_queue_enqueue_event` -/
  | enqueue
  /-- the call has returned, the event is with the queue or its worker -/
  | queued
  /-- the call has returned without queueing -/
  | returned
  /-- the worker is done with the event -/
  | finished
  /-- the call has returned an error -/
  | failed
  deriving DecidableEq

/-- The call has returned without an error. -/
def Pc.hasReturned : Pc → Bool
  | .queued | .returned | .finished => true
  | _ => false

/-- `_cl_event` -/
structure Event where
  queue : ℕ
  kind : Kind
  status : ℤ
  depend_events : List ℕ
  /-- `allow_immediate_submit` of a kernel -/
  immediate : Bool
  pc : Pc
  /-- history: the dependencies at creation -/
  deps : List ℕ
  /-- history: the commands of the queue whose calls had returned before this one -/
  before : List ℕ

/-- `worker_thread_function` -/
inductive Worker
  /-- waiting, or scanning the list under the lock; `in_exec_status` is
  `CL_COMPLETE` -/
  | idle
  /-- working on the ready list: the events still to be submitted (out-of-order
  queues only), the events still to be completed, and the running `cl_event_exec` -/
  | busy (frame : Option Exec) (submit complete : List ℕ)
  deriving DecidableEq

def Worker.complete : Worker → List ℕ
  | .idle => []
  | .busy _ _ complete => complete

/-- The running `cl_event_exec` and its event. -/
def Worker.running : Worker → Option (ℕ × Exec)
  | .busy (some x) submit complete => (submit ++ complete).head?.map fun e => (e, x)
  | _ => none

/-- `_cl_command_queue` -/
structure Queue where
  /-- `CL_QUEUE_OUT_OF_ORDER_EXEC_MODE_ENABLE` -/
  outOfOrder : Bool
  enqueued_events : List ℕ
  barrier_events : List ℕ
  worker : Worker

/-- The commands that are with the queue: first those of its worker. -/
def Queue.outstanding (q : Queue) : List ℕ := q.worker.complete ++ q.enqueued_events

/-- All events, all queues and the device. -/
structure State where
  eventNum : ℕ
  event : ℕ → Event
  queue : ℕ → Queue
  /-- the commands whose batches the device has not finished, in the order of their
  flush -/
  device : List ℕ
  /-- history: the calls of `cl_enqueue_handle` that do something -/
  calls : List (ℕ × ℤ)
  /-- history: the side effects, in the order they were performed -/
  performed : List ℕ

namespace State

def setEvent (s : State) (e : ℕ) (ev : Event) : State :=
  { s with event := Function.update s.event e ev }

def setQueue (s : State) (q : ℕ) (qu : Queue) : State :=
  { s with queue := Function.update s.queue q qu }

def setPc (s : State) (e : ℕ) (pc : Pc) : State :=
  s.setEvent e { s.event e with pc := pc }

end State

/-- Queues in the given modes, no events. -/
def init (outOfOrder : ℕ → Bool) : State where
  eventNum := 0
  event _ := ⟨0, .user, CL_EVENT_STATE_UNKNOWN, [], false, .failed, [], []⟩
  queue q := ⟨outOfOrder q, [], [], .idle⟩
  device := []
  calls := []
  performed := []

/-! ### Events -/

/-- The loop of `cl_event_is_ready`: positive, not ready; negative, an error. -/
def isReady (status : ℕ → ℤ) : List ℕ → ℤ → ℤ
  | [], ret => ret
  | d :: ds, ret =>
    if status d > CL_COMPLETE then status d
    else isReady status ds (if status d < CL_COMPLETE then status d else ret)

def cl_event_is_ready (s : State) (e : ℕ) : ℤ :=
  isReady (fun d => (s.event d).status) (s.event e).depend_events CL_COMPLETE

/-- `cl_event_set_status` as far as the status goes. -/
def cl_event_set_status (s : State) (e : ℕ) (status : ℤ) : State :=
  match assignStatus (s.event e).status status with
  | none => s
  | some st => s.setEvent e { s.event e with status := st }

def cl_event_delete_depslist (s : State) (e : ℕ) : State :=
  s.setEvent e { s.event e with depend_events := [] }

/-- `cl_command_queue_remove_barrier_event`, for a barrier. -/
def removeBarrier (s : State) (e : ℕ) : State :=
  if (s.event e).kind = .barrier then
    let q := s.queue (s.event e).queue
    s.setQueue (s.event e).queue { q with barrier_events := q.barrier_events.erase e }
  else s

/-- A call of `cl_enqueue_handle` that returns `ret`. -/
def cl_enqueue_handle (s : State) (e : ℕ) (st ret : ℤ) : State :=
  let kind := (s.event e).kind
  let acts := ret = CL_SUCCESS ∧ kind.effectAt = some st
  { s with
    calls := if kind.acts st then s.calls ++ [(e, st)] else s.calls
    device := if acts ∧ kind.onDevice then s.device ++ [e] else s.device
    performed := if acts ∧ ¬ kind.onDevice then s.performed ++ [e] else s.performed }

/-- The thread is in `cl_gpgpu_sync`, and the batch is not finished. -/
def waits (s : State) (e : ℕ) : Exec → Bool
  | .handle st _ => (s.event e).kind.onDevice && st == CL_COMPLETE && s.device.contains e
  | _ => false

/-- One step of `cl_event_exec`; `ret` is the answer of the handler.  The second
component is the next position, or the value returned. -/
def cl_event_exec (s : State) (e : ℕ) (ret : ℤ) : Exec → State × (Exec ⊕ ℤ)
  | .start target _ =>
    let cur := (s.event e).status
    if cur < CL_COMPLETE then (s, .inr cur)
    else
      let depend_status := cl_event_is_ready s e
      if depend_status < CL_COMPLETE then (s, .inl (.cancel depend_status))
      else
        let s := if depend_status = CL_COMPLETE then cl_event_delete_depslist s e else s
        if cur ≤ target then (s, .inr CL_SUCCESS) else (s, .inl (.handle (cur - 1) target))
  | .cancel status =>
    (cl_event_delete_depslist (cl_event_set_status s e status) e, .inl (.retire status))
  | .handle st target =>
    (cl_enqueue_handle s e st ret,
      .inl (if ret = CL_SUCCESS then .set st target else .fail ret))
  | .set st target =>
    (cl_event_set_status s e st,
      if st ≤ CL_COMPLETE then .inl (.retire CL_SUCCESS)
      else if target < st then .inl (.handle (st - 1) target) else .inr CL_SUCCESS)
  | .fail status => (cl_event_set_status s e status, .inl (.retire CL_SUCCESS))
  | .retire ret => (removeBarrier s e, .inr ret)

/-! ### Enqueue calls -/

/-- `cl_command_queue_allow_bypass_submit`. -/
def allow_bypass_submit (s : State) (q : ℕ) : Bool :=
  (s.queue q).outOfOrder || (s.queue q).enqueued_events.isEmpty

/-- The part of an enqueue call after `cl_event_is_ready` has answered `e_status`:
where the call goes on. -/
def afterCheck (s : State) (e : ℕ) (e_status : ℤ) : Pc :=
  let ev := s.event e
  let bypass := allow_bypass_submit s ev.queue && e_status == CL_COMPLETE
  match ev.kind with
  | .user => .failed
  | .transfer =>
    if bypass then .exec (.start CL_COMPLETE false) false
    else .exec (.start CL_QUEUED false) true
  | .map | .gl =>
    if bypass then .exec (.start CL_COMPLETE false) false
    else .exec (.start CL_SUBMITTED true) true
  | .kernel =>
    .exec (.start (if ev.immediate && e_status == CL_COMPLETE then CL_SUBMITTED
      else CL_QUEUED) false) true
  | .submit => .exec (.start (if bypass then CL_SUBMITTED else CL_QUEUED) false) true
  | .copyRect => if bypass then .exec (.start CL_SUBMITTED false) true else .enqueue
  | .native =>
    .exec (.start (if e_status = CL_COMPLETE then CL_COMPLETE else CL_QUEUED) false)
      (e_status ≠ CL_COMPLETE)
  | .marker | .barrier =>
    if e_status = CL_COMPLETE then .exec (.start CL_COMPLETE false) false else .enqueue

/-- A barrier is put on the list of its queue before anything else. -/
def insertBarrier (s : State) (e : ℕ) : State :=
  if (s.event e).kind = .barrier then
    let q := s.queue (s.event e).queue
    s.setQueue (s.event e).queue { q with barrier_events := q.barrier_events ++ [e] }
  else s

/-- The commands of a queue whose calls have returned. -/
def returnedOn (s : State) (q : ℕ) : List ℕ :=
  (List.range s.eventNum).filter fun i =>
    (s.event i).queue = q ∧ (s.event i).kind ≠ .user ∧ (s.event i).pc.hasReturned

/-- A new call on queue `q`. -/
def enter (s : State) (q : ℕ) (kind : Kind) (depend_events : List ℕ) (immediate : Bool) : State :=
  { s.setEvent s.eventNum
      { queue := q, kind := kind, status := newStatus false, depend_events := depend_events,
        immediate := immediate, pc := .entered, deps := depend_events,
        before := returnedOn s q } with
    eventNum := s.eventNum + 1 }

/-- A call, a step of a thread, or the end of a batch. -/
inductive Action
  | createUser
  /-- `clSetUserEventStatus` -/
  | setUser (e : ℕ) (status : ℤ)
  /-- start of an enqueue call with a wait list; a kernel looks at the queue here -/
  | call (q : ℕ) (kind : Kind) (wait : List ℕ)
  /-- a marker or barrier without a wait list depends on the queued events -/
  | callAll (q : ℕ) (kind : Kind)
  /-- the next part of a kernel that is enqueued in several pieces -/
  | callNext (prev : ℕ) (wait : List ℕ)
  /-- `cl_event_create` adds the barriers of the queue -/
  | create (e : ℕ)
  | check (e : ℕ)
  | abort (e : ℕ)
  | proceed (e : ℕ)
  | exec (e : ℕ) (ret : ℤ)
  | enqueue (e : ℕ)
  /-- the worker takes ready events off the list; `picked` matters for an
  out-of-order queue only -/
  | collect (q : ℕ) (picked : List ℕ)
  | work (q : ℕ) (ret : ℤ)
  /-- the device finishes its oldest batch -/
  | finish

def create (s : State) (e : ℕ) : State :=
  let ev := s.event e
  let deps := ev.depend_events ++ (s.queue ev.queue).barrier_events
  s.setEvent e { ev with depend_events := deps, deps := deps, pc := .created }

/-- `cl_event_is_ready` in the call: an error ends it, except for the GL commands. -/
def check (s : State) (e : ℕ) : State :=
  let e_status := cl_event_is_ready s e
  s.setPc e (if e_status < CL_COMPLETE ∧ (s.event e).kind ≠ .gl then .failed
    else .checked e_status)

def proceed (s : State) (e : ℕ) (e_status : ℤ) : State :=
  (insertBarrier s e).setPc e (afterCheck s e e_status)

/-- What a call does once `cl_event_exec` has returned. -/
def afterExec (err : ℤ) (enqueue : Bool) : Pc :=
  if err ≠ CL_SUCCESS then .failed
  else if enqueue then .enqueue
  else .returned

/-- One step of the `cl_event_exec` of a call. -/
def execInCall (s : State) (e : ℕ) (ret : ℤ) (x : Exec) (enqueue : Bool) : State :=
  match cl_event_exec s e ret x with
  | (s, .inl x) => s.setPc e (.exec x enqueue)
  | (s, .inr err) => s.setPc e (afterExec err enqueue)

def cl_command_queue_enqueue_event (s : State) (e : ℕ) : State :=
  let q := s.queue (s.event e).queue
  (s.setQueue (s.event e).queue { q with enqueued_events := q.enqueued_events ++ [e] }).setPc e
    .queued

/-! ### The worker -/

def readyNow (s : State) (e : ℕ) : Bool := cl_event_is_ready s e ≤ CL_COMPLETE

/-- The ready list of one scan. -/
def scan (s : State) (q : ℕ) (picked : List ℕ) : List ℕ :=
  let qu := s.queue q
  if qu.outOfOrder then qu.enqueued_events.filter fun e => e ∈ picked ∧ readyNow s e
  else qu.enqueued_events.takeWhile (readyNow s)

def collect (s : State) (q : ℕ) (picked : List ℕ) : State :=
  let qu := s.queue q
  let ready := scan s q picked
  s.setQueue q
    { qu with
      enqueued_events :=
        if qu.outOfOrder then qu.enqueued_events.filter fun e => e ∉ ready
        else qu.enqueued_events.dropWhile (readyNow s)
      worker := .busy none (if qu.outOfOrder then ready else []) ready }

def setWorker (s : State) (q : ℕ) (w : Worker) : State :=
  s.setQueue q { s.queue q with worker := w }

/-- One step of `cl_event_exec` in the worker, on the event `e`; `rest` is the worker
once the call has returned. -/
def execInWorker (s : State) (q e : ℕ) (ret : ℤ) (x : Exec) (submit complete : List ℕ)
    (rest : Worker) (pc : Pc) : State :=
  match cl_event_exec s e ret x with
  | (s, .inl x) => setWorker s q (.busy (some x) submit complete)
  | (s, .inr _) => setWorker (s.setPc e pc) q rest

def work (s : State) (q : ℕ) (ret : ℤ) : Option State :=
  match (s.queue q).worker with
  | .idle => none
  | .busy none (e :: submit) complete =>
    some (setWorker s q (.busy (some (.start CL_SUBMITTED false)) (e :: submit) complete))
  | .busy none [] (e :: complete) =>
    some (setWorker s q (.busy (some (.start CL_COMPLETE false)) [] (e :: complete)))
  | .busy none [] [] => some (setWorker s q .idle)
  | .busy (some x) (e :: submit) complete =>
    some (execInWorker s q e ret x (e :: submit) complete (.busy none submit complete) .queued)
  | .busy (some x) [] (e :: complete) =>
    some (execInWorker s q e ret x [] (e :: complete) (.busy none [] complete) .finished)
  | .busy (some _) [] [] => none

/-- One action; `none` when it is not possible in the state. -/
def next (s : State) : Action → Option State
  | .createUser =>
    some { s.setEvent s.eventNum
            ⟨0, .user, newStatus true, [], false, .returned, [], []⟩ with
           eventNum := s.eventNum + 1 }
  | .setUser e status =>
    if e < s.eventNum ∧ (s.event e).kind = .user ∧ status ≤ CL_COMPLETE then
      some (cl_event_set_status s e status)
    else none
  | .call q kind wait =>
    if kind ≠ .user ∧ (kind = .marker ∨ kind = .barrier → wait ≠ []) ∧
        ∀ d ∈ wait, d < s.eventNum then
      some (enter s q kind wait (allow_bypass_submit s q))
    else none
  | .callAll q kind =>
    if (kind = .marker ∨ kind = .barrier) ∧ (s.queue q).worker = .idle then
      some (enter s q kind (s.queue q).enqueued_events false)
    else none
  | .callNext prev wait =>
    if (s.event prev).kind = .kernel ∧ (s.event prev).pc.hasReturned ∧ prev < s.eventNum ∧
        ∀ d ∈ wait, d < s.eventNum then
      some (enter s (s.event prev).queue .kernel wait (s.event prev).immediate)
    else none
  | .create e => if (s.event e).pc = .entered then some (create s e) else none
  | .check e => if (s.event e).pc = .created then some (check s e) else none
  | .abort e => if (s.event e).pc = .created then some (s.setPc e .failed) else none
  | .proceed e =>
    match (s.event e).pc with
    | .checked e_status => some (proceed s e e_status)
    | _ => none
  | .exec e ret =>
    match (s.event e).pc with
    | .exec x enqueue =>
      if ret ≤ CL_SUCCESS ∧ waits s e x = false then some (execInCall s e ret x enqueue)
      else none
    | _ => none
  | .enqueue e =>
    if (s.event e).pc = .enqueue then some (cl_command_queue_enqueue_event s e) else none
  | .collect q picked =>
    if (s.queue q).worker = .idle ∧ scan s q picked ≠ [] then some (collect s q picked)
    else none
  | .work q ret =>
    if ret ≤ CL_SUCCESS ∧ ∀ r ∈ (s.queue q).worker.running, waits s r.1 r.2 = false then
      work s q ret
    else none
  | .finish =>
    match s.device with
    | [] => none
    | e :: device => some { s with device := device, performed := s.performed ++ [e] }

end CommandQueue

end Runtime
