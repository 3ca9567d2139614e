/-
The profiling times of an event: `cl_event_update_timestamp` (`cl_event.c`).

An event keeps five times: queued, submitted, started, ended and complete.  The status goes
down one step at a time and each step records its time; for a command on the GPU the start and
the end come together with the last step.  Then `cl_event_update_timestamp` looks for a time
that lies below the one before it, which it takes for an overflow of the counter, and counts all
times again from 0.

The times count again in 64 bits, so the repaired times are in order as long as the whole
distance fits, which is the case iff the recorded times wrap around no more often than their end
can make good.

* `ordered_update_iff` — when the five times come out in order, from any earlier values.

The assertions of the source stop the process and are left out.
-/
import Beignet.Runtime.Event

namespace Runtime

namespace Timestamp

/-- `cl_ulong` -/
abbrev Ulong := BitVec 64

def CL_EVENT_INVALID_TIMESTAMP : Ulong := 0xFFFFFFFFFFFFFFFF#64

inductive EnqueueType where
  | EnqueueReturnSuccesss | EnqueueReadBuffer | EnqueueReadBufferRect | EnqueueWriteBuffer
  | EnqueueWriteBufferRect | EnqueueCopyBuffer | EnqueueCopyBufferRect | EnqueueReadImage
  | EnqueueWriteImage | EnqueueCopyImage | EnqueueCopyImageToBuffer | EnqueueCopyBufferToImage
  | EnqueueMapBuffer | EnqueueMapImage | EnqueueUnmapMemObject | EnqueueNDRangeKernel
  | EnqueueNativeKernel | EnqueueMarker | EnqueueBarrier | EnqueueFillBuffer | EnqueueFillImage
  | EnqueueMigrateMemObj | EnqueueSVMFree | EnqueueSVMMemCopy | EnqueueSVMMemFill | EnqueueInvalid

/-- The commands that run on the GPU. -/
def EnqueueType.onGpu : EnqueueType → Bool
  | EnqueueCopyBufferRect | EnqueueCopyBuffer | EnqueueCopyImage | EnqueueCopyBufferToImage
  | EnqueueCopyImageToBuffer | EnqueueNDRangeKernel | EnqueueFillBuffer | EnqueueFillImage => true
  | _ => false

/-- `_cl_event`, as far as profiling goes. -/
structure Event where
  type : EnqueueType
  /-- `event_type` is `CL_COMMAND_USER` -/
  user : Bool
  /-- `CL_QUEUE_PROFILING_ENABLE` is set for the queue -/
  profiling : Bool
  timestamp : ℕ → Ulong

/-- What the driver answers during one call. -/
structure Counter where
  /-- `cl_gpgpu_event_get_gpu_cur_timestamp` -/
  cur : Ulong
  /-- `cl_gpgpu_event_get_exec_timestamp`, index 0 -/
  start : Ulong
  /-- `cl_gpgpu_event_get_exec_timestamp`, index 1 -/
  stop : Ulong

/-- A counter value that looks like no time is moved on by one. -/
def valid (ts : Ulong) : Ulong := if ts = CL_EVENT_INVALID_TIMESTAMP then ts + 1 else ts

/-- The place of a status in the array. -/
def slot (status : ℤ) : ℕ := (CL_QUEUED - status).toNat

def Event.set (event : Event) (i : ℕ) (ts : Ulong) : Event :=
  { event with timestamp := Function.update event.timestamp i ts }

def cl_event_update_timestamp_gen (event : Event) (status : ℤ) (counter : Counter) : Event :=
  if event.type.onGpu then
    if status = CL_QUEUED ∨ status = CL_SUBMITTED then
      event.set (slot status) (valid counter.cur)
    else if status = CL_RUNNING then event
    else
      let event := (event.set 2 (valid counter.start)).set 3 (valid counter.stop)
      if event.timestamp 2 < event.timestamp 1 ∨
          0x0FFFFFFFFFF#64 < event.timestamp 2 - event.timestamp 1 then
        event.set 1 (event.timestamp 2)
      else event
  else event.set (slot status) (valid counter.cur)

/-- The distance of two neighbouring times. -/
def delta (t : ℕ → Ulong) (i : ℕ) : Ulong :=
  if t (i + 1) < t i then t (i + 1) + (CL_EVENT_INVALID_TIMESTAMP - t i) else t (i + 1) - t i

/-- All times again, from 0. -/
def recount (ts : ℕ → Ulong) : ℕ → Ulong
  | 0 => 0#64
  | i + 1 => recount ts i + ts i

/-- The repair at the end of `cl_event_update_timestamp`. -/
def repair (t : ℕ → Ulong) : ℕ → Ulong :=
  if (List.range 4).any fun i => t (i + 1) < t i then
    fun i => if i < 5 then recount (delta t) i else t i
  else t

def cl_event_update_timestamp (event : Event) (state : ℤ) (counter : Counter) : Event :=
  if event.user then event
  else if !event.profiling then event
  else
    let event := cl_event_update_timestamp_gen event state counter
    if state = CL_COMPLETE then
      let event := event.set 4 (event.timestamp 3)
      { event with timestamp := repair event.timestamp }
    else event

/-! ### The order of the times -/

/-- queued ≤ submit ≤ start ≤ end ≤ complete -/
def Ordered (t : ℕ → Ulong) : Prop := ∀ i < 4, t i ≤ t (i + 1)

/-- How many of the first four times lie below the one before. -/
def wraps (t : ℕ → Ulong) : ℕ :=
  (if t 1 < t 0 then 1 else 0) + (if t 2 < t 1 then 1 else 0) + (if t 3 < t 2 then 1 else 0)

/-- The distance from the first to the last time, a whole turn of the counter for each wrap,
fits in 64 bits. -/
def Fits (t : ℕ → Ulong) : Prop :=
  (t 3).toNat + wraps t * (2 ^ 64 - 1) < (t 0).toNat + 2 ^ 64

theorem ordered_iff (t : ℕ → Ulong) :
    Ordered t ↔ t 0 ≤ t 1 ∧ t 1 ≤ t 2 ∧ t 2 ≤ t 3 ∧ t 3 ≤ t 4 := by
  constructor
  · intro h
    exact ⟨h 0 (by omega), h 1 (by omega), h 2 (by omega), h 3 (by omega)⟩
  · rintro ⟨h0, h1, h2, h3⟩ i hi
    interval_cases i
    · exact h0
    · exact h1
    · exact h2
    · exact h3

theorem descends_iff (t : ℕ → Ulong) :
    ((List.range 4).any fun i => t (i + 1) < t i) = true ↔ ¬ Ordered t := by
  simp [Ordered, BitVec.not_le]

theorem toNat_delta (t : ℕ → Ulong) (i : ℕ) :
    (delta t i).toNat =
      if t (i + 1) < t i then (t (i + 1)).toNat + (2 ^ 64 - 1) - (t i).toNat
      else (t (i + 1)).toNat - (t i).toNat := by
  have hi := (t i).isLt
  have hj := (t (i + 1)).isLt
  rw [delta]
  split
  · next h =>
    have h' := BitVec.lt_def.mp h
    rw [BitVec.toNat_add, BitVec.toNat_sub]
    simp only [CL_EVENT_INVALID_TIMESTAMP, BitVec.toNat_ofNat]
    omega
  · next h =>
    have h' := BitVec.le_def.mp (BitVec.not_lt.mp h)
    rw [BitVec.toNat_sub]
    omega

/-- Adding keeps the order iff it does not wrap around. -/
theorem le_add_iff (a b : Ulong) : a ≤ a + b ↔ a.toNat + b.toNat < 2 ^ 64 := by
  have ha := a.isLt
  have hb := b.isLt
  rw [BitVec.le_def, BitVec.toNat_add]
  omega

/-- The recounted times are in order iff no addition wraps around. -/
theorem ordered_recount_iff (d : ℕ → Ulong) :
    Ordered (recount d) ↔
      (d 0).toNat + (d 1).toNat + (d 2).toNat + (d 3).toNat < 2 ^ 64 := by
  have h0 := (d 0).isLt
  have h1 := (d 1).isLt
  have h2 := (d 2).isLt
  have h3 := (d 3).isLt
  rw [ordered_iff]
  simp only [recount, le_add_iff, BitVec.toNat_add, BitVec.toNat_zero]
  omega

/-- Times whose last two agree are repaired well iff their distance fits. -/
theorem ordered_repair_iff {t : ℕ → Ulong} (hlast : t 4 = t 3) :
    Ordered (repair t) ↔ Fits t := by
  have h0 := (t 0).isLt
  have h1 := (t 1).isLt
  have h2 := (t 2).isLt
  have h3 := (t 3).isLt
  rw [repair]
  by_cases hord : Ordered t
  · rw [if_neg fun h => (descends_iff t).mp h hord]
    refine iff_of_true hord ?_
    obtain ⟨h01, h12, h23, -⟩ := (ordered_iff t).mp hord
    rw [Fits, wraps, if_neg (BitVec.not_lt.mpr h01), if_neg (BitVec.not_lt.mpr h12),
      if_neg (BitVec.not_lt.mpr h23)]
    omega
  · rw [if_pos ((descends_iff t).mpr hord)]
    have hcongr : Ordered (fun i => if i < 5 then recount (delta t) i else t i) ↔
        Ordered (recount (delta t)) := by
      simp [ordered_iff]
    rw [hcongr, ordered_recount_iff]
    simp only [toNat_delta, hlast, BitVec.lt_irrefl, if_false, Nat.zero_add, Nat.reduceAdd,
      Fits, wraps, BitVec.lt_def]
    split_ifs <;> omega

/-! ### Updates -/

/-- The times before the repair. -/
def recorded (event : Event) (state : ℤ) (counter : Counter) : ℕ → Ulong :=
  (cl_event_update_timestamp_gen event state counter).timestamp

theorem ordered_complete_iff {event : Event} (hu : event.user = false)
    (hp : event.profiling = true) (counter : Counter) :
    Ordered (cl_event_update_timestamp event CL_COMPLETE counter).timestamp ↔
      Fits (recorded event CL_COMPLETE counter) := by
  have hupdate : (cl_event_update_timestamp event CL_COMPLETE counter).timestamp =
      repair (Function.update (recorded event CL_COMPLETE counter) 4
        (recorded event CL_COMPLETE counter 3)) := by
    simp [cl_event_update_timestamp, hu, hp, Event.set, recorded]
  rw [hupdate, ordered_repair_iff (by simp)]
  exact Iff.rfl

/-- **When the profiling times are in order**: whatever the event has recorded so far and
whatever the counter says. -/
theorem ordered_update_iff (event : Event) (counter : Counter) :
    Ordered (cl_event_update_timestamp event CL_COMPLETE counter).timestamp ↔
      if event.user = false ∧ event.profiling = true then
        Fits (recorded event CL_COMPLETE counter)
      else Ordered event.timestamp := by
  by_cases h : event.user = false ∧ event.profiling = true
  · rw [if_pos h]
    exact ordered_complete_iff h.1 h.2 counter
  · rw [if_neg h]
    cases hu : event.user with
    | true => simp [cl_event_update_timestamp, hu]
    | false =>
      have hp : event.profiling = false := by simpa [hu] using h
      simp [cl_event_update_timestamp, hu, hp]

/-! ### A new event -/

/-- What `cl_event_new` leaves, for a queue with profiling. -/
def cl_event_new (type : EnqueueType) : Event :=
  ⟨type, false, true, fun _ => CL_EVENT_INVALID_TIMESTAMP⟩

/-- All four states, each with what the driver answers then. -/
def run (type : EnqueueType) (counter : ℤ → Counter) : Event :=
  [CL_QUEUED, CL_SUBMITTED, CL_RUNNING, CL_COMPLETE].foldl
    (fun event state => cl_event_update_timestamp event state (counter state)) (cl_event_new type)

/-- A counter that wraps around between queueing and submission. -/
def wrapped : ℤ → Counter := fun state => ⟨if state = CL_QUEUED then 10 else 5, 20, 30⟩

/-- The kernel is queued at 10, submitted at 5, started at 20 and done at 30. -/
theorem wrapped_not_ordered : ¬ Ordered (run .EnqueueNDRangeKernel wrapped).timestamp := by
  rw [ordered_iff]
  decide

end Timestamp

end Runtime
