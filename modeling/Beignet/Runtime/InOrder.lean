/-
The order of the commands of an in-order queue.

A command is enqueued before another one if its call has returned when the call of
the other one starts.  What holds back a later command is the queue itself: the
worker takes the commands in the order of the list and completes each before it
starts the next, and the device takes the batches in the order of their flush.  A call
that executes its command directly is not held back by anything but
`enqueued_events`, and the worker empties that list before it executes the commands
of it.

* `Ordered` — the invariant: a command that is not done yet is with the queue, the
  queue lists no command after one that was enqueued later, the device has no batch
  whose predecessors are still to come, and every command that has been performed
  came after all commands enqueued before it;
* `next_ordered` — every action keeps it, unless a call overtakes the worker;
* `in_order` — in a run without such a call, commands are performed in order;
* `overtaking_transfer` — a run in which a transfer overtakes another one.
-/
import Beignet.Runtime.Dependencies

open Transition

namespace Runtime.CommandQueue

/-- The side effect of the command is over: there is none, it has been performed, or
the command has ended with an error. -/
def Done (s : State) (e : ℕ) : Prop :=
  (s.event e).kind.effectAt = none ∨ e ∈ s.performed ∨ (s.event e).status < CL_COMPLETE

/-- All commands enqueued before `e` are done. -/
def AllDone (s : State) (e : ℕ) : Prop := ∀ i ∈ (s.event e).before, Done s i

/-- All commands enqueued before `e` are done, or come before it on the device. -/
def MayStart (s : State) (e : ℕ) : Prop :=
  ∀ i ∈ (s.event e).before, Done s i ∨ (s.event e).kind.onDevice ∧ i ∈ s.device

/-- The status is one that follows the side effect or the flush. -/
def Reached (s : State) (e : ℕ) : Prop :=
  ∀ p, (s.event e).kind.effectAt = some p → (s.event e).status ≤ p

theorem effectAt_bounds {k : Kind} {p : ℤ} (h : k.effectAt = some p) :
    CL_COMPLETE ≤ p ∧ p ≤ CL_SUBMITTED := by
  have hcases : p = CL_COMPLETE ∨ p = CL_SUBMITTED := by
    cases k <;> simp_all [Kind.effectAt]
  rcases hcases with rfl | rfl <;> decide

theorem effectAt_onDevice {k : Kind} {p : ℤ} (h : k.effectAt = some p) :
    p = if k.onDevice then CL_SUBMITTED else CL_COMPLETE := by
  cases k <;> simp_all [Kind.effectAt, Kind.onDevice]

theorem MayStart.allDone {s : State} {e : ℕ} (h : MayStart s e)
    (hk : (s.event e).kind.onDevice = false) : AllDone s e := fun i hi =>
  (h i hi).resolve_right fun hdev => by simp [hk] at hdev

/-- What the status of a command says: its side effect is done or on the device, and
at `CL_COMPLETE` it is done. -/
def StatusOk (s : State) (e : ℕ) : Prop :=
  (Reached s e → Done s e ∨ e ∈ s.device) ∧ ((s.event e).status ≤ CL_COMPLETE → Done s e)

/-- The call of `cl_event_exec` goes down to the status `p`, if nothing fails. -/
def Exec.MayAct (p : ℤ) : Exec → Prop
  | .start t _ | .handle _ t | .set _ t => t ≤ p
  | _ => False

/-- A thread that stands there has performed the side effect if it was due, or given it
to the device. -/
def Past (s : State) (e : ℕ) : Exec → Prop
  | .handle st _ => ∀ p, (s.event e).kind.effectAt = some p → st < p →
      e ∈ s.performed ∨ e ∈ s.device
  | .set st _ => ∀ p, (s.event e).kind.effectAt = some p → st ≤ p →
      e ∈ s.performed ∨ CL_COMPLETE < st ∧ e ∈ s.device
  | _ => True

/-- Queue `q` is in-order. -/
def InOrder (s : State) (q : ℕ) : Prop := (s.queue q).outOfOrder = false

/-- What an action may do to the commands that exist: nothing that undoes a side
effect. -/
structure Grows (s s' : State) : Prop where
  performed : ∀ e ∈ s.performed, e ∈ s'.performed
  device : ∀ e ∈ s.device, e ∈ s'.performed ∨ e ∈ s'.device
  evolves : Evolves s s'
  kind : ∀ e < s.eventNum, (s'.event e).kind = (s.event e).kind

section Grows

variable {s s' : State} {e : ℕ}

theorem Done.mono (h : Done s e) (hg : Grows s s') (he : e < s.eventNum) : Done s' e := by
  rcases h with h | h | h
  · rw [← hg.kind e he] at h
    exact .inl h
  · exact .inr (.inl (hg.performed e h))
  · rw [← hg.evolves e h.le] at h
    exact .inr (.inr h)

/-- A batch stays on the device until it has been performed. -/
theorem Grows.done_or_device (hg : Grows s s') (he : e < s.eventNum)
    (h : Done s e ∨ e ∈ s.device) : Done s' e ∨ e ∈ s'.device := by
  rcases h with h | h
  · exact .inl (h.mono hg he)
  · exact (hg.device e h).imp_left fun h => .inr (.inl h)

theorem MayStart.mono (h : MayStart s e) (hg : Grows s s')
    (hbefore : (s'.event e).before = (s.event e).before)
    (hkind : (s'.event e).kind = (s.event e).kind)
    (hlt : ∀ i ∈ (s.event e).before, i < s.eventNum) : MayStart s' e := by
  intro i hi
  rw [hbefore] at hi
  rw [hkind]
  rcases h i hi with h | ⟨hk, h⟩
  · exact .inl (h.mono hg (hlt i hi))
  · exact (hg.device i h).imp (fun h => .inr (.inl h)) fun h => ⟨hk, h⟩

theorem StatusOk.mono (h : StatusOk s e) (hg : Grows s s') (he : e < s.eventNum)
    (hstatus : (s'.event e).status = (s.event e).status) : StatusOk s' e := by
  unfold StatusOk Reached at *
  rw [hg.kind e he, hstatus]
  exact ⟨fun hr => hg.done_or_device he (h.1 hr), fun hle => (h.2 hle).mono hg he⟩

theorem Past.mono {x : Exec} (h : Past s e x) (hg : Grows s s') (he : e < s.eventNum) :
    Past s' e x := by
  cases x with
  | handle st t =>
    intro p hp hlt
    rw [hg.kind e he] at hp
    rcases h p hp hlt with h | h
    · exact .inl (hg.performed e h)
    · exact hg.device e h
  | set st t =>
    intro p hp hle
    rw [hg.kind e he] at hp
    rcases h p hp hle with h | ⟨hst, h⟩
    · exact .inl (hg.performed e h)
    · exact (hg.device e h).imp_right fun h => ⟨hst, h⟩
  | _ => trivial

end Grows

/-! ### The invariant -/

structure EventOrdered (s : State) (e : ℕ) : Prop where
  before : ∀ i ∈ (s.event e).before, i < e ∧ (s.event i).pc.hasReturned ∧
    (s.event i).kind ≠ .user ∧ (s.event i).queue = (s.event e).queue
  status : StatusOk s e
  exec : ∀ x enqueue, (s.event e).pc = .exec x enqueue → Past s e x ∧
    (InOrder s (s.event e).queue → ∀ p, (s.event e).kind.effectAt = some p → x.MayAct p →
      MayStart s e)
  queued : (s.event e).pc = .queued → e ∈ (s.queue (s.event e).queue).outstanding
  performed : e ∈ s.performed → InOrder s (s.event e).queue → AllDone s e

structure QueueOrdered (s : State) (q : ℕ) (qu : Queue) : Prop where
  owner : ∀ e ∈ qu.outstanding, e < s.eventNum ∧ (s.event e).queue = q
  submit : ∀ frame submit complete, qu.worker = .busy frame submit complete →
    (∀ e ∈ submit, e ∈ complete) ∧ (qu.outOfOrder = false → submit = [])
  frame : ∀ x submit complete, qu.worker = .busy (some x) submit complete →
    ∀ e, (submit ++ complete).head? = some e → Past s e x
  order : qu.outOfOrder = false →
    qu.outstanding.Pairwise fun a b => b ∉ (s.event a).before

structure Ordered (s : State) : Prop where
  fresh : ∀ e, s.eventNum ≤ e →
    e ∉ s.performed ∧ e ∉ s.device ∧ (s.event e).before = []
  event : ∀ e, e < s.eventNum → EventOrdered s e
  queue : ∀ q, QueueOrdered s q (s.queue q)
  device : ∀ l1 e l2, s.device = l1 ++ e :: l2 → InOrder s (s.event e).queue →
    ∀ i ∈ (s.event e).before, Done s i ∨ i ∈ l1

theorem init_ordered (outOfOrder : ℕ → Bool) : Ordered (init outOfOrder) where
  fresh e _ := ⟨by simp [init], by simp [init], rfl⟩
  event e he := absurd he (by simp [init])
  queue q := by
    refine ⟨?_, ?_, ?_, ?_⟩ <;> simp [init, Queue.outstanding, Worker.complete]
  device l1 e l2 h := absurd h (by simp [init])

section Steps

variable {s s' : State}

theorem Pc.hasReturned_cases {pc : Pc} (h : pc.hasReturned) :
    pc = .queued ∨ pc = .returned ∨ pc = .finished := by
  cases pc <;> simp_all [Pc.hasReturned]

/-- A command whose call has returned and that is not with its queue is done. -/
theorem Ordered.done_of_not_outstanding (ho : Ordered s) (hs : Inv s) {i : ℕ}
    (hret : (s.event i).pc.hasReturned) (hk : (s.event i).kind ≠ .user)
    (hnot : i ∉ (s.queue (s.event i).queue).outstanding) : Done s i := by
  have hi : i < s.eventNum := hs.lt_eventNum fun h => by simp [h, Pc.hasReturned] at hret
  have hok := ho.event i hi
  have hle : (s.event i).status ≤ CL_COMPLETE := by
    rcases Pc.hasReturned_cases hret with h | h | h
    · exact absurd (hok.queued h) hnot
    · exact (hs.event i).final (.inl h) hk
    · exact (hs.event i).final (.inr h) hk
  exact hok.status.2 hle

/-- A command on the device is one of the commands. -/
theorem Ordered.lt_of_device (ho : Ordered s) {e : ℕ} (h : e ∈ s.device) : e < s.eventNum := by
  by_contra hle
  exact (ho.fresh e (by omega)).2.1 h

/-- The worker of an in-order queue is at the first command that is not done yet. -/
theorem Ordered.allDone_head (ho : Ordered s) (hs : Inv s) {q e : ℕ} {rest : List ℕ}
    (hq : InOrder s q) (hout : (s.queue q).outstanding = e :: rest) : AllDone s e := by
  obtain ⟨he, hqe⟩ := (ho.queue q).owner e (by simp [hout])
  intro i hi
  obtain ⟨hlt, hret, hk, hqi⟩ := (ho.event e he).before i hi
  refine ho.done_of_not_outstanding hs hret hk ?_
  rw [hqi, hqe, hout, List.mem_cons]
  rintro (h | h)
  · omega
  · have horder := (ho.queue q).order hq
    rw [hout, List.pairwise_cons] at horder
    exact horder.1 i h hi

/-! ### Changes to one event, to one queue, and new events -/

/-- An action that changes one command, and may perform it. -/
theorem Ordered.change (ho : Ordered s) {e : ℕ} (he : e < s.eventNum)
    (hnum : s'.eventNum = s.eventNum) (hev : Evolves s s')
    (hother : ∀ e', e' ≠ e → s'.event e' = s.event e')
    (hsame : (s'.event e).before = (s.event e).before ∧ (s'.event e).queue = (s.event e).queue ∧
      (s'.event e).kind = (s.event e).kind)
    (hret : (s.event e).pc.hasReturned → (s'.event e).pc.hasReturned)
    (hqueue : ∀ q, (s'.queue q).enqueued_events = (s.queue q).enqueued_events ∧
      (s'.queue q).worker = (s.queue q).worker ∧
      (s'.queue q).outOfOrder = (s.queue q).outOfOrder)
    (hperf : s'.performed = s.performed ∨ s'.performed = s.performed ++ [e] ∧
      (InOrder s (s.event e).queue → AllDone s e))
    (hdev : s'.device = s.device ∨ s.device = e :: s'.device ∧ e ∈ s'.performed ∨
      s'.device = s.device ++ [e] ∧ (InOrder s (s.event e).queue →
        ∀ i ∈ (s.event e).before, Done s i ∨ i ∈ s.device))
    (hstatus : StatusOk s' e)
    (hexec : ∀ x enqueue, (s'.event e).pc = .exec x enqueue → Past s' e x ∧
      (InOrder s (s.event e).queue → ∀ p, (s.event e).kind.effectAt = some p → x.MayAct p →
        MayStart s e))
    (hqueued : (s'.event e).pc = .queued → e ∈ (s.queue (s.event e).queue).outstanding) :
    Ordered s' := by
  have hmem : ∀ e' ∈ s'.performed, e' ∈ s.performed ∨
      e' = e ∧ (InOrder s (s.event e).queue → AllDone s e) := by
    intro e' h
    rcases hperf with hp | ⟨hp, hd⟩
    · exact .inl (hp ▸ h)
    · rw [hp, List.mem_append, List.mem_singleton] at h
      exact h.imp_right fun h => ⟨h, hd⟩
  -- what has been done stays done, and what the device has is done or still there
  have hg : Grows s s' := by
    refine ⟨fun e' h => ?_, fun e' h => ?_, hev, fun e' _ => ?_⟩
    · rcases hperf with hp | ⟨hp, -⟩
      · rwa [hp]
      · rw [hp]
        exact List.mem_append_left _ h
    · rcases hdev with hd | ⟨hd, hmem⟩ | ⟨hd, -⟩
      · exact .inr (hd ▸ h)
      · rw [hd, List.mem_cons] at h
        rcases h with rfl | h
        · exact .inl hmem
        · exact .inr h
      · rw [hd]
        exact .inr (List.mem_append_left _ h)
    · by_cases h : e' = e
      · exact h ▸ hsame.2.2
      · rw [hother e' h]
  have hfix : ∀ e', (s'.event e').before = (s.event e').before ∧
      (s'.event e').queue = (s.event e').queue ∧ (s'.event e').kind = (s.event e').kind := by
    intro e'
    by_cases h : e' = e
    · exact h ▸ hsame
    · rw [hother e' h]
      exact ⟨rfl, rfl, rfl⟩
  have hback : ∀ e', (s.event e').pc.hasReturned → (s'.event e').pc.hasReturned := by
    intro e'
    by_cases h : e' = e
    · exact h ▸ hret
    · rw [hother e' h]
      exact id
  have hin : ∀ q, InOrder s' q ↔ InOrder s q := fun q => by
    unfold InOrder
    rw [(hqueue q).2.2]
  have hout : ∀ q, (s'.queue q).outstanding = (s.queue q).outstanding := fun q => by
    unfold Queue.outstanding
    rw [(hqueue q).1, (hqueue q).2.1]
  have hdone : ∀ e' < s.eventNum, AllDone s e' → AllDone s' e' := by
    intro e' he' h i hi
    rw [(hfix e').1] at hi
    have := (ho.event e' he').before i hi
    exact (h i hi).mono hg (by omega)
  have hstart : ∀ e' < s.eventNum, MayStart s e' → MayStart s' e' := fun e' he' h =>
    h.mono hg (hfix e').1 (hfix e').2.2 fun i hi => by
      have := (ho.event e' he').before i hi
      omega
  -- in each part the event is `e`, whose new state is given, or one left alone
  refine ⟨fun e' he' => ?_, fun e' he' => ?_, fun q => ?_, fun l1 e' l2 hl hq i hi => ?_⟩
  · rw [hnum] at he'
    rw [(hfix e').1]
    refine ⟨fun h => ?_, fun h => ?_, (ho.fresh e' he').2.2⟩
    · rcases hmem e' h with h | ⟨rfl, -⟩
      · exact (ho.fresh e' he').1 h
      · omega
    · refine (ho.fresh e' he').2.1 ?_
      rcases hdev with hd | ⟨hd, -⟩ | ⟨hd, -⟩
      · rwa [← hd]
      · rw [hd]
        exact List.mem_cons_of_mem _ h
      · rw [hd, List.mem_append, List.mem_singleton] at h
        exact h.resolve_right fun h => by omega
  · rw [hnum] at he'
    have hok := ho.event e' he'
    refine ⟨fun i hi => ?_, ?_, ?_, ?_, fun h hq => ?_⟩
    · rw [(hfix e').1] at hi
      obtain ⟨h1, h2, h3, h4⟩ := hok.before i hi
      rw [(hfix i).2.1, (hfix i).2.2, (hfix e').2.1]
      exact ⟨h1, hback i h2, h3, h4⟩
    · by_cases h : e' = e
      · exact h ▸ hstatus
      · exact hok.status.mono hg he' (by rw [hother e' h])
    · intro x enqueue hpc
      rw [(hfix e').2.1, (hfix e').2.2]
      by_cases h : e' = e
      · subst h
        obtain ⟨hpast, hall⟩ := hexec x enqueue hpc
        exact ⟨hpast, fun hq p hp hm => hstart e' he' (hall ((hin _).mp hq) p hp hm)⟩
      · rw [hother e' h] at hpc
        obtain ⟨hpast, hall⟩ := hok.exec x enqueue hpc
        exact ⟨hpast.mono hg he', fun hq p hp hm => hstart e' he' (hall ((hin _).mp hq) p hp hm)⟩
    · rw [(hfix e').2.1, hout]
      by_cases h : e' = e
      · exact h ▸ hqueued
      · rw [hother e' h]
        exact hok.queued
    · rw [(hfix e').2.1, hin] at hq
      rcases hmem e' h with h | ⟨rfl, hd⟩
      · exact hdone e' he' (hok.performed h hq)
      · exact hdone e' he' (hd hq)
  · obtain ⟨howner, hsubmit, hframe, horder⟩ := ho.queue q
    rw [← hout] at howner horder
    rw [← (hqueue q).2.1] at hsubmit hframe
    rw [← (hqueue q).2.2] at hsubmit horder
    refine ⟨fun e' h => ?_, hsubmit, fun x submit complete hw e' hhead => ?_, fun hq => ?_⟩
    · rw [hnum, (hfix e').2.1]
      exact howner e' h
    · refine (hframe x submit complete hw e' hhead).mono hg (howner e' ?_).1
      have hmem : e' ∈ submit ++ complete := List.mem_of_mem_head? (by simp [hhead])
      unfold Queue.outstanding
      rw [hw]
      refine List.mem_append_left _ ?_
      exact (List.mem_append.mp hmem).elim ((hsubmit _ submit complete hw).1 e') id
    · refine (horder hq).imp fun {a b} h => ?_
      rwa [(hfix a).1]
  · rw [(hfix e').2.1, hin] at hq
    rw [(hfix e').1] at hi
    have hlast : ∀ l1 l2, s.device = l1 ++ e' :: l2 → Done s' i ∨ i ∈ l1 := fun l1 l2 hd => by
      have he' : e' < s.eventNum := ho.lt_of_device (by simp [hd])
      have := ((ho.event e' he').before i hi).1
      exact (ho.device l1 e' l2 hd hq i hi).imp_left fun h => h.mono hg (by omega)
    rcases hdev with hd | ⟨hd, hmem⟩ | ⟨hd, hall⟩
    · exact hlast l1 l2 (hd ▸ hl)
    · -- the batch that the device has finished was the first one
      rw [hl] at hd
      rcases hlast (e :: l1) l2 hd with h | h
      · exact .inl h
      · rcases List.mem_cons.mp h with rfl | h
        · exact .inl (.inr (.inl hmem))
        · exact .inr h
    · rcases List.eq_nil_or_concat l2 with rfl | ⟨l3, a, rfl⟩
      · -- the new batch is the last one
        obtain ⟨rfl, h⟩ := List.append_inj' (hd.symm.trans hl) rfl
        obtain rfl := List.singleton_inj.mp h
        have := ((ho.event e he).before i hi).1
        exact (hall hq i hi).imp_left fun h => h.mono hg (by omega)
      · have hd' : s.device ++ [e] = (l1 ++ e' :: l3) ++ [a] := by
          rw [← hd, hl]
          simp
        exact hlast l1 l3 (List.append_inj' hd' rfl).1

/-- An action that moves commands between a queue and its worker. -/
theorem Ordered.setQueue (ho : Ordered s) {q : ℕ} {qu : Queue}
    (hmode : qu.outOfOrder = (s.queue q).outOfOrder) (hqu : QueueOrdered s q qu)
    (hqueued : ∀ e, (s.event e).pc = .queued → (s.event e).queue = q →
      e ∈ (s.queue q).outstanding → e ∈ qu.outstanding) : Ordered (s.setQueue q qu) := by
  have hself : (s.setQueue q qu).queue q = qu := Function.update_self ..
  have hsame : ∀ q', q' ≠ q → (s.setQueue q qu).queue q' = s.queue q' := fun q' h =>
    Function.update_of_ne h _ _
  have hin : ∀ q', InOrder (s.setQueue q qu) q' ↔ InOrder s q' := by
    intro q'
    unfold InOrder
    by_cases h : q' = q
    · rw [h, hself, hmode]
    · rw [hsame q' h]
  refine ⟨ho.fresh, fun e he => ?_, fun q' => ?_,
    fun l1 e l2 hl hq => ho.device l1 e l2 hl ((hin _).mp hq)⟩
  · obtain ⟨hbefore, hstatus, hexec, hin_list, hperf⟩ := ho.event e he
    refine ⟨hbefore, hstatus, fun x enqueue hpc => ⟨(hexec x enqueue hpc).1, fun hq => ?_⟩,
      fun hpc => ?_, fun h hq => hperf h ((hin _).mp hq)⟩
    · exact (hexec x enqueue hpc).2 ((hin _).mp hq)
    · show e ∈ ((s.setQueue q qu).queue (s.event e).queue).outstanding
      by_cases h : (s.event e).queue = q
      · rw [h, hself]
        exact hqueued e hpc h (h ▸ hin_list hpc)
      · rw [hsame _ h]
        exact hin_list hpc
  · by_cases h : q' = q
    · rw [h, hself]
      exact ⟨hqu.owner, hqu.submit, hqu.frame, hqu.order⟩
    · rw [hsame q' h]
      obtain ⟨h1, h2, h3, h4⟩ := ho.queue q'
      exact ⟨h1, h2, h3, h4⟩

/-- A new event. -/
theorem Ordered.add (ho : Ordered s) (hs : Inv s) {ev : Event}
    (hbefore : ∀ i ∈ ev.before, i < s.eventNum ∧ (s.event i).pc.hasReturned ∧
      (s.event i).kind ≠ .user ∧ (s.event i).queue = ev.queue)
    (hst : ev.kind = .user ∨ CL_QUEUED < ev.status)
    (hpc : ev.pc = .entered ∨ ev.pc = .returned) :
    Ordered { s.setEvent s.eventNum ev with eventNum := s.eventNum + 1 } := by
  set s' : State := { s.setEvent s.eventNum ev with eventNum := s.eventNum + 1 } with hs'
  have hself : s'.event s.eventNum = ev := Function.update_self ..
  have hother : ∀ e, e ≠ s.eventNum → s'.event e = s.event e := fun e h =>
    Function.update_of_ne h _ _
  have hold : ∀ e < s.eventNum, s'.event e = s.event e := fun e h => hother e (by omega)
  have hg : Grows s s' := by
    refine ⟨fun _ h => h, fun _ h => .inr h, fun e hle => ?_, fun e h => by rw [hold e h]⟩
    have hne : e ≠ s.eventNum := by
      rintro rfl
      rw [(hs.fresh s.eventNum le_rfl).1] at hle
      exact absurd hle (by decide)
    rw [hother e hne]
  have hdone : ∀ e < s.eventNum, AllDone s e → AllDone s' e := by
    intro e he h i hi
    rw [hold e he] at hi
    have := (ho.event e he).before i hi
    exact (h i hi).mono hg (by omega)
  refine ⟨fun e he => ?_, fun e he => ?_, fun q => ?_, fun l1 e l2 hl hq i hi => ?_⟩
  · have hlt : s.eventNum + 1 ≤ e := he
    rw [hother e (by omega)]
    exact ho.fresh e (by omega)
  · by_cases h : e = s.eventNum
    · subst h
      -- its status is still above that of its side effect
      have hnew : ∀ p, ev.kind.effectAt = some p → p < ev.status := by
        intro p hp
        rcases hst with hk | hst
        · simp [hk, Kind.effectAt] at hp
        · exact (effectAt_bounds hp).2.trans_lt (lt_trans (by decide) hst)
      have hdone : Reached s' s.eventNum → Done s' s.eventNum := by
        intro hr
        unfold Reached at hr
        unfold Done
        rw [hself] at hr ⊢
        rcases hp : ev.kind.effectAt with _ | p
        · exact .inl rfl
        · exact absurd (hr p hp) (hnew p hp).not_ge
      refine ⟨fun i hi => ?_, ⟨fun hr => .inl (hdone hr), fun hle => hdone fun p hp => ?_⟩,
        fun x enqueue h => ?_, fun h => ?_, fun h => ?_⟩
      · rw [hself] at hi ⊢
        obtain ⟨h1, h2⟩ := hbefore i hi
        rw [hold i h1]
        exact ⟨h1, h2⟩
      · rw [hself] at hp
        exact hle.trans (effectAt_bounds hp).1
      · rw [hself] at h
        rcases hpc with h' | h' <;> simp [h'] at h
      · rw [hself] at h
        rcases hpc with h' | h' <;> simp [h'] at h
      · exact absurd h (ho.fresh s.eventNum le_rfl).1
    · have hlt : e < s.eventNum := by
        have : e < s.eventNum + 1 := he
        omega
      obtain ⟨h1, h2, h3, h4, h5⟩ := ho.event e hlt
      have hev := hold e hlt
      refine ⟨fun i hi => ?_, h2.mono hg hlt (by rw [hev]), fun x enqueue h => ?_, ?_,
        fun h hq => ?_⟩
      · rw [hev] at hi ⊢
        have hi' := h1 i hi
        rw [hold i (by omega)]
        exact hi'
      · rw [hev] at h ⊢
        obtain ⟨hpast, hall⟩ := h3 x enqueue h
        exact ⟨hpast.mono hg hlt, fun hq p hp hm => (hall hq p hp hm).mono hg (by rw [hev])
          (by rw [hev]) fun i hi => (h1 i hi).1.trans hlt⟩
      · rw [hev]
        exact h4
      · rw [hev] at hq
        exact hdone e hlt (h5 h hq)
  · obtain ⟨howner, hsubmit, hframe, horder⟩ := ho.queue q
    refine ⟨fun e h => ?_, hsubmit, fun x submit complete hw e hhead => ?_, fun hq => ?_⟩
    · obtain ⟨hlt, hqe⟩ := howner e h
      rw [hold e hlt]
      exact ⟨Nat.lt_succ_of_lt hlt, hqe⟩
    · refine (hframe x submit complete hw e hhead).mono hg (howner e ?_).1
      have hmem : e ∈ submit ++ complete := List.mem_of_mem_head? (by simp [hhead])
      have hw' : (s.queue q).worker = .busy (some x) submit complete := hw
      unfold Queue.outstanding
      rw [hw']
      refine List.mem_append_left _ ?_
      exact (List.mem_append.mp hmem).elim ((hsubmit _ submit complete hw).1 e) id
    · refine List.Pairwise.imp_of_mem (fun {a b} ha _ h => ?_) (horder hq)
      rwa [hold a (howner a ha).1]
  · have hl' : s.device = l1 ++ e :: l2 := hl
    have he : e < s.eventNum := ho.lt_of_device (by simp [hl'])
    rw [hold e he] at hq hi
    have := ((ho.event e he).before i hi).1
    exact (ho.device l1 e l2 hl hq i hi).imp_left fun h => h.mono hg (by omega)

/-! ### One step of `cl_event_exec` -/

/-- What a step of `cl_event_exec` on `e` does to the side effects. -/
structure ExecOrdered (s : State) (e : ℕ) (x : Exec) (r : State × (Exec ⊕ ℤ)) : Prop where
  performed : r.1.performed = s.performed ∨ r.1.performed = s.performed ++ [e] ∧
    (s.event e).kind.onDevice = false ∧ ∃ p, (s.event e).kind.effectAt = some p ∧ x.MayAct p
  device : r.1.device = s.device ∨ r.1.device = s.device ++ [e] ∧
    ∃ p, (s.event e).kind.effectAt = some p ∧ x.MayAct p
  status : StatusOk r.1 e
  goes_on : ∀ x', r.2 = .inl x' → Past r.1 e x' ∧ ∀ p, x'.MayAct p → x.MayAct p

/-- A step that leaves the side effects alone and gives the event a status that needs
none. -/
theorem StatusOk.of_same {e : ℕ} (h : StatusOk s e) (hperf : s'.performed = s.performed)
    (hdev : s'.device = s.device) (hkind : (s'.event e).kind = (s.event e).kind)
    (hst : (s'.event e).status = (s.event e).status ∨ (s'.event e).status < CL_COMPLETE ∨
      ∀ p, (s.event e).kind.effectAt = some p → (s'.event e).status ≤ p →
        e ∈ s.performed ∨ CL_COMPLETE < (s'.event e).status ∧ e ∈ s.device) :
    StatusOk s' e := by
  unfold StatusOk Reached Done at *
  rw [hkind, hperf, hdev]
  rcases hst with hst | hst | hst
  · rw [hst]
    exact h
  · exact ⟨fun _ => .inl (.inr (.inr hst)), fun _ => .inr (.inr hst)⟩
  · rcases hp : (s.event e).kind.effectAt with _ | p
    · exact ⟨fun _ => .inl (.inl rfl), fun _ => .inl rfl⟩
    · refine ⟨fun hr => ?_, fun hle => ?_⟩
      · exact (hst p hp (hr p (hp ▸ rfl))).imp (fun h => .inr (.inl h)) And.right
      · have := hst p hp (hle.trans (effectAt_bounds hp).1)
        exact .inr (.inl (this.resolve_right fun h => absurd h.1 (by omega)))

theorem set_status_effects (s : State) (e : ℕ) (st : ℤ) :
    (cl_event_set_status s e st).performed = s.performed ∧
      (cl_event_set_status s e st).device = s.device := by
  rw [set_status_eq]
  exact ⟨rfl, rfl⟩

/-- A handler call on `e`: at `CL_COMPLETE` the batch of a kernel is finished. -/
theorem handle_ordered {e : ℕ} {st t : ℤ} (hok : ExecOk s e (.handle st t))
    (hpast : Past s e (.handle st t)) (hwait : waits s e (.handle st t) = false)
    (hr : StatusOk s e) (ret : ℤ) :
    ExecOrdered s e (.handle st t) (cl_event_exec s e ret (.handle st t)) := by
  simp only [cl_event_exec]
  have hperf : ∀ e' ∈ s.performed, e' ∈ (cl_enqueue_handle s e st ret).performed := by
    intro e' h
    simp only [cl_enqueue_handle]
    split
    · exact List.mem_append_left _ h
    · exact h
  have hdev : ∀ e' ∈ s.device, e' ∈ (cl_enqueue_handle s e st ret).device := by
    intro e' h
    simp only [cl_enqueue_handle]
    split
    · exact List.mem_append_left _ h
    · exact h
  refine ⟨?_, ?_, ⟨fun h => ?_, fun h => ?_⟩, fun x' h => ?_⟩
  · simp only [cl_enqueue_handle]
    split
    · rename_i hact
      exact .inr ⟨rfl, by simpa using hact.2, st, hact.1.2, hok.2.1⟩
    · exact .inl rfl
  · simp only [cl_enqueue_handle]
    split
    · rename_i hact
      exact .inr ⟨rfl, st, hact.1.2, hok.2.1⟩
    · exact .inl rfl
  · exact (hr.1 h).imp (fun h => h.imp_right fun h => h.imp_left (hperf e)) (hdev e)
  · exact (hr.2 h).imp_right fun h => h.imp_left (hperf e)
  · obtain rfl := Sum.inl.inj h
    split
    · rename_i hzero
      refine ⟨fun p hp hle => ?_, fun _ h => h⟩
      have hp' : (s.event e).kind.effectAt = some p := hp
      have hst : CL_COMPLETE ≤ st := hok.1.trans hok.2.1
      have hpeq := effectAt_onDevice hp'
      rcases hle.lt_or_eq with hlt | rfl
      · rcases hpast p hp' hlt with h | h
        · exact .inl (hperf e h)
        · -- a host command has no status below that of its side effect
          by_cases hk : (s.event e).kind.onDevice = true
          · refine .inr ⟨lt_of_le_of_ne hst fun hc => ?_, hdev e h⟩
            simp [waits, hk, hc.symm, h] at hwait
          · rw [if_neg hk] at hpeq
            omega
      · by_cases hk : (s.event e).kind.onDevice = true
        · rw [if_pos hk] at hpeq
          refine .inr ⟨by rw [hpeq]; decide, ?_⟩
          simp [cl_enqueue_handle, hzero, hp', hk]
        · exact .inl (by simp [cl_enqueue_handle, hzero, hp', hk])
    · exact ⟨trivial, fun _ h => h.elim⟩

theorem exec_ordered {e : ℕ} {x : Exec} (hok : ExecOk s e x) (hpast : Past s e x)
    (hwait : waits s e x = false) (hr : StatusOk s e) (ret : ℤ) :
    ExecOrdered s e x (cl_event_exec s e ret x) := by
  cases x with
  | start t ignore =>
    simp only [cl_event_exec]
    by_cases hneg : (s.event e).status < CL_COMPLETE
    · rw [if_pos hneg]
      exact ⟨.inl rfl, .inl rfl, hr, fun x' h => absurd h (by simp)⟩
    rw [if_neg hneg]
    by_cases hd : cl_event_is_ready s e < CL_COMPLETE
    · rw [if_pos hd]
      refine ⟨.inl rfl, .inl rfl, hr, fun x' h => ?_⟩
      obtain rfl := Sum.inl.inj h
      exact ⟨trivial, fun _ h => h.elim⟩
    rw [if_neg hd]
    -- from here on only the list of dependencies may have changed
    set s1 := if cl_event_is_ready s e = CL_COMPLETE then cl_event_delete_depslist s e else s
      with hs1
    have hsame : s1.performed = s.performed ∧ s1.device = s.device ∧
        (s1.event e).kind = (s.event e).kind ∧ (s1.event e).status = (s.event e).status := by
      rw [hs1]
      split
      · simp [cl_event_delete_depslist, State.setEvent]
      · exact ⟨rfl, rfl, rfl, rfl⟩
    obtain ⟨hperf, hdev, hkind, hstatus⟩ := hsame
    have hr1 := hr.of_same hperf hdev hkind (.inl hstatus)
    split
    · exact ⟨.inl hperf, .inl hdev, hr1, fun x' h => absurd h (by simp)⟩
    · refine ⟨.inl hperf, .inl hdev, hr1, fun x' h => ?_⟩
      obtain rfl := Sum.inl.inj h
      refine ⟨fun p hp hlt => ?_, fun _ h => h⟩
      -- a status below that of the side effect means that it has been performed
      rw [hkind] at hp
      rw [hperf, hdev]
      have hreached : Reached s e := fun p' hp' => by
        obtain rfl := Option.some_inj.mp (hp.symm.trans hp')
        omega
      refine (hr.1 hreached).imp_left fun hdone => ?_
      rcases hdone with h | h | h
      · exact absurd (hp.symm.trans h) (by simp)
      · exact h
      · exact absurd h hneg
  | cancel st =>
    obtain ⟨hperf, hdev⟩ := set_status_effects s e st
    refine ⟨.inl hperf, .inl hdev, ?_, fun x' h => ?_⟩
    · refine hr.of_same hperf hdev ?_ ?_
      · exact ((delete_depslist_touches _ e).kind e).trans ((set_status_touches s e st).kind e)
      · simp only [cl_event_exec, cl_event_delete_depslist, State.setEvent, Function.update_self,
          set_status_status]
        split
        · exact .inr (.inl hok.1)
        · exact .inl rfl
    · obtain rfl := Sum.inl.inj h
      exact ⟨trivial, fun _ h => h.elim⟩
  | handle st t => exact handle_ordered hok hpast hwait hr ret
  | set st t =>
    simp only [cl_event_exec]
    obtain ⟨hperf, hdev⟩ := set_status_effects s e st
    have hkind := (set_status_touches s e st).kind e
    refine ⟨.inl hperf, .inl hdev, hr.of_same hperf hdev hkind ?_, fun x' h => ?_⟩
    · rw [set_status_status]
      split
      · exact .inr (.inr hpast)
      · exact .inl rfl
    · by_cases h0 : st ≤ CL_COMPLETE
      · rw [if_pos h0] at h
        obtain rfl := Sum.inl.inj h
        exact ⟨trivial, fun _ h => h.elim⟩
      · rw [if_neg h0] at h
        by_cases h1 : t < st
        · rw [if_pos h1] at h
          obtain rfl := Sum.inl.inj h
          -- the next turn is below `st`, so what was due at `st` is over
          refine ⟨fun p hp hlt => ?_, fun _ h => h⟩
          rw [hkind] at hp
          rw [hperf, hdev]
          exact (hpast p hp (by omega)).imp_right And.right
        · rw [if_neg h1] at h
          cases h
  | fail st =>
    obtain ⟨hperf, hdev⟩ := set_status_effects s e st
    refine ⟨.inl hperf, .inl hdev,
      hr.of_same hperf hdev ((set_status_touches s e st).kind e) ?_, fun x' h => ?_⟩
    · show ((cl_event_set_status s e st).event e).status = _ ∨
        ((cl_event_set_status s e st).event e).status < _ ∨ _
      rw [set_status_status]
      split
      · exact .inr (.inl hok)
      · exact .inl rfl
    · obtain rfl := Sum.inl.inj h
      exact ⟨trivial, fun _ h => h.elim⟩
  | retire r =>
    have hsame : (removeBarrier s e).performed = s.performed ∧
        (removeBarrier s e).device = s.device ∧ (removeBarrier s e).event = s.event := by
      unfold removeBarrier
      split <;> exact ⟨rfl, rfl, rfl⟩
    obtain ⟨hperf, hdev, hev⟩ := hsame
    exact ⟨.inl hperf, .inl hdev, hr.of_same hperf hdev (by rw [cl_event_exec, hev])
      (.inl (by rw [cl_event_exec, hev])), fun x' h => absurd h (by simp [cl_event_exec])⟩

/-! ### The actions -/

theorem Ordered.setPc (ho : Ordered s) {e : ℕ} {pc : Pc} (he : e < s.eventNum)
    (hret : (s.event e).pc.hasReturned → pc.hasReturned)
    (hexec : ∀ x enqueue, pc = .exec x enqueue → Past s e x ∧
      (InOrder s (s.event e).queue → ∀ p, (s.event e).kind.effectAt = some p → x.MayAct p →
        MayStart s e))
    (hqueued : pc = .queued → e ∈ (s.queue (s.event e).queue).outstanding) :
    Ordered (s.setPc e pc) := by
  have hself : (s.setPc e pc).event e = { s.event e with pc := pc } := Function.update_self ..
  have hother : ∀ e', e' ≠ e → (s.setPc e pc).event e' = s.event e' := fun e' h =>
    Function.update_of_ne h _ _
  have hev : Evolves s (s.setPc e pc) := by
    intro e' _
    by_cases h : e' = e
    · rw [h, hself]
    · rw [hother e' h]
  have hg : Grows s (s.setPc e pc) := by
    refine ⟨fun _ h => h, fun _ h => .inr h, hev, fun e' _ => ?_⟩
    by_cases h : e' = e
    · rw [h, hself]
    · rw [hother e' h]
  refine ho.change he rfl hev hother (by rw [hself]; exact ⟨rfl, rfl, rfl⟩) ?_
    (fun q => ⟨rfl, rfl, rfl⟩) (.inl rfl) (.inl rfl)
    ((ho.event e he).status.of_same rfl rfl (by rw [hself]) (.inl (by rw [hself]))) ?_ ?_
  · rw [hself]
    exact hret
  · rw [hself]
    exact fun x enqueue h => ⟨((hexec x enqueue h).1).mono hg he, (hexec x enqueue h).2⟩
  · rw [hself]
    exact hqueued

/-- A step of `cl_event_exec`, by whichever thread. -/
theorem Ordered.execStep (ho : Ordered s) (hs : Inv s) {e : ℕ} {x : Exec} {ret : ℤ}
    (he : e < s.eventNum) (hret : ret ≤ CL_SUCCESS) (hok : ExecOk s e x) (hpast : Past s e x)
    (hwait : waits s e x = false)
    (hact : InOrder s (s.event e).queue → ∀ p, (s.event e).kind.effectAt = some p →
      x.MayAct p → MayStart s e) : Ordered (cl_event_exec s e ret x).1 := by
  have ht := (exec_spec (hs.event e).core hok hret).touches
  have hord := exec_ordered hok hpast hwait (ho.event e he).status ret
  have hperf : (cl_event_exec s e ret x).1.performed = s.performed ∨
      (cl_event_exec s e ret x).1.performed = s.performed ++ [e] ∧
        (InOrder s (s.event e).queue → AllDone s e) :=
    hord.performed.imp_right fun ⟨h, hk, p, hp, hm⟩ =>
      ⟨h, fun hq => (hact hq p hp hm).allDone hk⟩
  have hdev : (cl_event_exec s e ret x).1.device = s.device ∨
      (cl_event_exec s e ret x).1.device = s.device ++ [e] ∧ (InOrder s (s.event e).queue →
        ∀ i ∈ (s.event e).before, Done s i ∨ i ∈ s.device) :=
    hord.device.imp_right fun ⟨h, p, hp, hm⟩ =>
      ⟨h, fun hq i hi => (hact hq p hp hm i hi).imp_right And.right⟩
  have hg : Grows s (cl_event_exec s e ret x).1 := by
    refine ⟨fun e' h => ?_, fun e' h => .inr ?_, ht.evolves, fun e' _ => ht.kind e'⟩
    · rcases hperf with hp | ⟨hp, -⟩
      · rwa [hp]
      · rw [hp]
        exact List.mem_append_left _ h
    · rcases hdev with hd | ⟨hd, -⟩
      · rwa [hd]
      · rw [hd]
        exact List.mem_append_left _ h
  obtain ⟨st, ds, hev, -⟩ := ht.event
  have hself : (cl_event_exec s e ret x).1.event e =
      { s.event e with status := st, depend_events := ds } := by
    rw [hev, Function.update_self]
  refine ho.change he ht.eventNum ht.evolves (fun e' h => ht.other h)
    (by rw [hself]; exact ⟨rfl, rfl, rfl⟩) (by rw [hself]; exact id)
    (fun q => ⟨ht.enqueued q, ht.worker q, ht.outOfOrder q⟩) hperf (hdev.imp_right .inr)
    hord.status ?_ ?_
  · rw [hself]
    intro y enqueue hpc
    obtain ⟨hp, hall⟩ := (ho.event e he).exec y enqueue hpc
    exact ⟨hp.mono hg he, hall⟩
  · rw [hself]
    exact (ho.event e he).queued

theorem setUser_ordered (ho : Ordered s) {e : ℕ} {st : ℤ} (he : e < s.eventNum)
    (hk : (s.event e).kind = .user) : Ordered (cl_event_set_status s e st) := by
  have ht := set_status_touches s e st
  obtain ⟨hperf, hdev⟩ := set_status_effects s e st
  have hg : Grows s (cl_event_set_status s e st) :=
    ⟨fun e' h => by rwa [hperf], fun e' h => .inr (by rwa [hdev]), ht.evolves,
      fun e' _ => ht.kind e'⟩
  have hnone : ((cl_event_set_status s e st).event e).kind.effectAt = none := by
    rw [ht.kind, hk]
    rfl
  rw [set_status_eq] at ht hperf hdev hg hnone ⊢
  refine ho.change he ht.eventNum ht.evolves (fun e' h => ht.other h) ?_ ?_
    (fun q => ⟨rfl, rfl, rfl⟩) (.inl hperf) (.inl hdev)
    ⟨fun _ => .inl (.inl hnone), fun _ => .inl hnone⟩ ?_ ?_
  · simp [State.setEvent]
  · simp [State.setEvent]
  · rw [ht.pc]
    intro y enqueue hpc
    obtain ⟨hp, hall⟩ := (ho.event e he).exec y enqueue hpc
    exact ⟨hp.mono hg he, hall⟩
  · rw [ht.pc]
    exact (ho.event e he).queued

theorem enter_ordered (ho : Ordered s) (hs : Inv s) {q : ℕ} {kind : Kind} {ds : List ℕ}
    {imm : Bool} : Ordered (enter s q kind ds imm) := by
  have hst : CL_QUEUED < newStatus false := by decide
  refine ho.add hs (fun i hi => ?_) (.inr hst) (.inl rfl)
  obtain ⟨hlt, hcond⟩ := List.mem_filter.mp hi
  obtain ⟨hq, hk, hret⟩ := of_decide_eq_true hcond
  exact ⟨List.mem_range.mp hlt, hret, hk, hq⟩

theorem create_ordered (ho : Ordered s) (hs : Inv s) {e : ℕ} (hpc : (s.event e).pc = .entered) :
    Ordered (create s e) := by
  have he : e < s.eventNum := hs.lt_eventNum (by simp [hpc])
  refine ho.change he rfl (evolves_create s e) (fun _ => create_of_ne) ?_ ?_
    (fun q => ⟨rfl, rfl, rfl⟩) (.inl rfl) (.inl rfl) ((ho.event e he).status.of_same rfl rfl
      (by rw [create_self]) (.inl (by rw [create_self]))) ?_ ?_
  · rw [create_self]
    exact ⟨rfl, rfl, rfl⟩
  · rw [hpc]
    simp [Pc.hasReturned]
  · rw [create_self]
    simp
  · rw [create_self]
    simp

/-- The call decides to execute its command itself, on an in-order queue, while a
command enqueued before is still with the queue and has not reached its side effect;
or, for a host command, while the batch of one is on the device. -/
def overtakes (s : State) : Action → Bool
  | .proceed e =>
    match (s.event e).pc with
    | .checked e_status =>
      let q := s.queue (s.event e).queue
      !q.outOfOrder && executesNow s e e_status &&
        (s.event e).before.any fun i => q.outstanding.contains i &&
          (!reached s i || !(s.event e).kind.onDevice && s.device.contains i)
    | _ => false
  | _ => false
where
  /-- after the check the call goes on to the side effect, or to the flush -/
  executesNow (s : State) (e : ℕ) (e_status : ℤ) : Bool :=
    match afterCheck s e e_status, (s.event e).kind.effectAt with
    | .exec (.start target _) _, some p => target ≤ p
    | _, _ => false
  /-- the status is one that follows the side effect or the flush -/
  reached (s : State) (i : ℕ) : Bool :=
    match (s.event i).kind.effectAt with
    | none => true
    | some p => (s.event i).status ≤ p

theorem overtakes.reached_iff {i : ℕ} : overtakes.reached s i = true ↔ Reached s i := by
  unfold overtakes.reached Reached
  rcases (s.event i).kind.effectAt with _ | p
  · simp
  · simp

/-- A call that does not overtake the worker finds everything before it done, or on
the device where its own batch goes. -/
theorem Ordered.mayStart_of_proceed (ho : Ordered s) (hs : Inv s) {e : ℕ} {st : ℤ}
    (hpc : (s.event e).pc = .checked st) (hover : overtakes s (.proceed e) = false)
    (hq : InOrder s (s.event e).queue) {x : Exec} {enqueue : Bool}
    (hx : afterCheck s e st = .exec x enqueue) {p : ℤ}
    (hp : (s.event e).kind.effectAt = some p) (hm : x.MayAct p) : MayStart s e := by
  have he : e < s.eventNum := hs.lt_eventNum (by simp [hpc])
  have hnow : overtakes.executesNow s e st = true := by
    obtain ⟨t, ignore, rfl⟩ := afterCheck_start hx
    have hle : t ≤ p := hm
    simpa [overtakes.executesNow, hx, hp] using hle
  intro i hi
  obtain ⟨-, hret, hk, hqi⟩ := (ho.event e he).before i hi
  by_cases hout : i ∈ (s.queue (s.event i).queue).outstanding
  · have hi' := (ho.event i ((ho.queue _).owner i hout).1).status.1
    unfold InOrder at hq
    rw [hqi] at hout
    simp only [overtakes, hpc, hq, hnow, Bool.not_false, Bool.true_and, List.any_eq_false,
      Bool.and_eq_true, Bool.or_eq_true, Bool.not_eq_true', List.contains_iff_mem, not_and,
      not_or, Bool.not_eq_false] at hover
    obtain ⟨hreached, hdev⟩ := hover i hi hout
    refine (hi' (overtakes.reached_iff.mp hreached)).imp_right fun h => ⟨?_, h⟩
    by_contra hk
    exact hdev (by simpa using hk) h
  · exact .inl (ho.done_of_not_outstanding hs hret hk hout)

theorem insertBarrier_ordered (ho : Ordered s) (e : ℕ) : Ordered (insertBarrier s e) := by
  unfold insertBarrier
  split
  · obtain ⟨h1, h2, h3, h4⟩ := ho.queue (s.event e).queue
    exact ho.setQueue rfl ⟨h1, h2, h3, h4⟩ fun _ _ _ h => h
  · exact ho

theorem insertBarrier_queue (s : State) (e q : ℕ) :
    ((insertBarrier s e).queue q).outOfOrder = (s.queue q).outOfOrder := by
  unfold insertBarrier
  split
  · by_cases h : q = (s.event e).queue
    · rw [h]
      simp [State.setQueue]
    · simp [State.setQueue, h]
  · rfl

theorem proceed_ordered (ho : Ordered s) (hs : Inv s) {e : ℕ} {st : ℤ}
    (hpc : (s.event e).pc = .checked st) (hover : overtakes s (.proceed e) = false) :
    Ordered (proceed s e st) := by
  have he : e < s.eventNum := hs.lt_eventNum (by simp [hpc])
  have hev := insertBarrier_event s e
  have hnum : (insertBarrier s e).eventNum = s.eventNum := by
    unfold insertBarrier
    split <;> rfl
  have hperf : (insertBarrier s e).performed = s.performed := by
    unfold insertBarrier
    split <;> rfl
  have hdev : (insertBarrier s e).device = s.device := by
    unfold insertBarrier
    split <;> rfl
  unfold proceed
  refine (insertBarrier_ordered ho e).setPc (hnum ▸ he) ?_ (fun x enqueue hx => ⟨?_, ?_⟩) ?_
  · rw [hev, hpc]
    simp [Pc.hasReturned]
  · obtain ⟨t, ignore, rfl⟩ := afterCheck_start hx
    trivial
  · intro hq p hp hm
    rw [hev] at hq hp
    unfold InOrder at hq
    rw [insertBarrier_queue] at hq
    have hall := ho.mayStart_of_proceed hs hpc hover hq hx hp hm
    unfold MayStart Done
    rw [hev, hperf, hdev]
    exact hall
  · rcases afterCheck_cases s e st with ⟨t, i, b, h⟩ | h | h <;> simp [h]

theorem execInCall_ordered (ho : Ordered s) (hs : Inv s) {e : ℕ} {x : Exec} {enqueue : Bool}
    {ret : ℤ} (hpc : (s.event e).pc = .exec x enqueue) (hret : ret ≤ CL_SUCCESS)
    (hwait : waits s e x = false) : Ordered (execInCall s e ret x enqueue) := by
  have he : e < s.eventNum := hs.lt_eventNum (by simp [hpc])
  have hok := ((hs.event e).exec x enqueue hpc).1
  obtain ⟨hpast, hact⟩ := (ho.event e he).exec x enqueue hpc
  have ht := (exec_spec (hs.event e).core hok hret).touches
  have hord := exec_ordered hok hpast hwait (ho.event e he).status ret
  have ho1 := ho.execStep hs he hret hok hpast hwait hact
  have he1 : e < (cl_event_exec s e ret x).1.eventNum := by rwa [ht.eventNum]
  have hact1 := (ho1.event e he1).exec x enqueue (by rw [ht.pc, hpc])
  have hpc1 : ¬ ((cl_event_exec s e ret x).1.event e).pc.hasReturned := by
    rw [ht.pc, hpc]
    simp [Pc.hasReturned]
  unfold execInCall
  rcases hr : cl_event_exec s e ret x with ⟨s1, x' | v⟩
  · have hgo := hord.goes_on x' (by rw [hr])
    rw [hr] at ho1 he1 hact1 hpc1 hgo
    refine ho1.setPc he1 (fun h => absurd h hpc1) (fun y b h => ?_) (by simp)
    obtain ⟨rfl, rfl⟩ := Pc.exec.inj h
    exact ⟨hgo.1, fun hq p hp hm => hact1.2 hq p hp (hgo.2 p hm)⟩
  · rw [hr] at ho1 he1 hpc1
    refine ho1.setPc he1 (fun h => absurd h hpc1) ?_ ?_
    · rcases afterExec_cases v enqueue with h | h | ⟨h, -⟩ <;> simp [h]
    · rcases afterExec_cases v enqueue with h | h | ⟨h, -⟩ <;> simp [h]

theorem enqueue_ordered (ho : Ordered s) (hs : Inv s) {e : ℕ} (hpc : (s.event e).pc = .enqueue) :
    Ordered (cl_command_queue_enqueue_event s e) := by
  have he : e < s.eventNum := hs.lt_eventNum (by simp [hpc])
  set q := (s.event e).queue with hq
  obtain ⟨howner, hsubmit, hframe, horder⟩ := ho.queue q
  set qu : Queue := { s.queue q with enqueued_events := (s.queue q).enqueued_events ++ [e] }
    with hqu
  have hout : qu.outstanding = (s.queue q).outstanding ++ [e] := by
    simp [hqu, Queue.outstanding]
  have ho1 : Ordered (s.setQueue q qu) := by
    refine ho.setQueue rfl ⟨fun e' h => ?_, hsubmit, hframe, fun hmode => ?_⟩ fun e' _ _ h => ?_
    · rw [hout, List.mem_append, List.mem_singleton] at h
      rcases h with h | rfl
      · exact howner e' h
      · exact ⟨he, rfl⟩
    · rw [hout, List.pairwise_append]
      refine ⟨horder hmode, List.pairwise_singleton _ _, fun a ha b hb hmem => ?_⟩
      -- a command that is still in its call is not before any other
      obtain rfl := List.mem_singleton.mp hb
      have := ((ho.event a (howner a ha).1).before b hmem).2.1
      simp [hpc, Pc.hasReturned] at this
    · rw [hout]
      exact List.mem_append_left _ h
  unfold cl_command_queue_enqueue_event
  refine ho1.setPc he ?_ (by simp) fun _ => ?_
  · exact fun _ => rfl
  · show e ∈ ((s.setQueue q qu).queue q).outstanding
    rw [show (s.setQueue q qu).queue q = qu from Function.update_self .., hout]
    simp

theorem collect_ordered (ho : Ordered s) {q : ℕ} {picked : List ℕ}
    (hidle : (s.queue q).worker = .idle) : Ordered (collect s q picked) := by
  obtain ⟨howner, hsubmit, hframe, horder⟩ := ho.queue q
  have hout : (s.queue q).outstanding = (s.queue q).enqueued_events := by
    simp [Queue.outstanding, hidle, Worker.complete]
  rw [hout] at howner horder
  unfold collect scan
  simp only
  by_cases hmode : (s.queue q).outOfOrder = true
  · simp only [hmode, if_true]
    refine ho.setQueue hmode.symm ⟨fun e h => howner e ?_, fun frame submit complete h => ?_,
      fun x submit complete h => absurd h (by simp), fun h => absurd h (by simp)⟩
      fun e _ _ h => ?_
    · simp only [Queue.outstanding, Worker.complete, List.mem_append, List.mem_filter] at h
      exact h.elim And.left And.left
    · obtain ⟨-, rfl, rfl⟩ := Worker.busy.inj h
      exact ⟨fun _ h => h, fun h => absurd h (by simp)⟩
    · rw [hout] at h
      simp only [Queue.outstanding, Worker.complete, List.mem_append, List.mem_filter]
      by_cases hr : decide (e ∈ picked ∧ readyNow s e = true) = true
      · exact .inl ⟨h, hr⟩
      · exact .inr ⟨h, by simpa [h, or_iff_not_imp_left] using hr⟩
  · have hmode' : (s.queue q).outOfOrder = false := by simpa using hmode
    simp only [hmode', Bool.false_eq_true, if_false]
    have hsame : List.takeWhile (readyNow s) (s.queue q).enqueued_events ++
        List.dropWhile (readyNow s) (s.queue q).enqueued_events =
          (s.queue q).enqueued_events := List.takeWhile_append_dropWhile
    refine ho.setQueue hmode'.symm ⟨fun e h => howner e ?_, fun frame submit complete h => ?_,
      fun x submit complete h => absurd h (by simp), fun _ => ?_⟩ fun e _ _ h => ?_
    · simpa [Queue.outstanding, Worker.complete, hsame] using h
    · obtain ⟨-, rfl, rfl⟩ := Worker.busy.inj h
      exact ⟨fun _ h => absurd h (by simp), fun _ => rfl⟩
    · simpa [Queue.outstanding, Worker.complete, hsame] using horder hmode'
    · rw [hout] at h
      simpa [Queue.outstanding, Worker.complete, hsame] using h

/-- The worker moves on within its list. -/
theorem Ordered.setWorker (ho : Ordered s) {q : ℕ} {w : Worker}
    (hsubmit : ∀ frame submit complete, w = .busy frame submit complete →
      (∀ e ∈ submit, e ∈ complete) ∧ (InOrder s q → submit = []))
    (hframe : ∀ x submit complete, w = .busy (some x) submit complete →
      ∀ e, (submit ++ complete).head? = some e → Past s e x)
    (hsuffix : w.complete <:+ (s.queue q).worker.complete)
    (hqueued : ∀ e ∈ (s.queue q).worker.complete, (s.event e).pc = .queued →
      e ∈ w.complete) : Ordered (setWorker s q w) := by
  obtain ⟨howner, -, -, horder⟩ := ho.queue q
  refine ho.setQueue rfl ⟨fun e h => howner e ?_, hsubmit, hframe, fun hmode => ?_⟩
    fun e hpc _ h => ?_
  · rcases List.mem_append.mp h with h | h
    · exact List.mem_append_left _ (hsuffix.subset h)
    · exact List.mem_append_right _ h
  · exact (horder hmode).sublist (hsuffix.sublist.append_right _)
  · rcases List.mem_append.mp h with h | h
    · exact List.mem_append_left _ (hqueued e h hpc)
    · exact List.mem_append_right _ h

/-- One step of the worker on the event `e` at the head of its list. -/
theorem execInWorker_ordered (ho : Ordered s) (hs : Inv s) {q e : ℕ} {ret : ℤ} {x : Exec}
    {submit complete : List ℕ} {rest : Worker} {pc : Pc} (hret : ret ≤ CL_SUCCESS)
    (hwait : waits s e x = false)
    (hw : (s.queue q).worker = .busy (some x) submit complete)
    (hrest : (∃ es, submit = e :: es ∧ rest = .busy none es complete ∧ pc = .queued) ∨
      submit = [] ∧ ∃ es, complete = e :: es ∧ rest = .busy none [] es ∧ pc = .finished) :
    Ordered (execInWorker s q e ret x submit complete rest pc) := by
  obtain ⟨howner, hsubmit, hframe, -⟩ := ho.queue q
  obtain ⟨hsub, hempty⟩ := hsubmit _ _ _ hw
  have hhead : (submit ++ complete).head? = some e := by
    rcases hrest with ⟨es, rfl, -⟩ | ⟨rfl, es, rfl, -⟩ <;> rfl
  have hmem : e ∈ complete := by
    rcases hrest with ⟨es, rfl, -⟩ | ⟨-, es, rfl, -⟩
    · exact hsub e (by simp)
    · simp
  have hout : (s.queue q).outstanding = complete ++ (s.queue q).enqueued_events := by
    simp [Queue.outstanding, hw, Worker.complete]
  obtain ⟨he, hqe⟩ := howner e (by rw [hout]; exact List.mem_append_left _ hmem)
  have hpast := hframe x submit complete hw e hhead
  have hwok := (hs.queue q).worker
  rw [hw] at hwok
  have hok : ExecOk s e x := by
    rcases hrest with ⟨es, h, -⟩ | ⟨h, es, h', -⟩
    · exact hwok.2.1 e es x h rfl
    · exact (hwok.2.2 e es x h h' rfl).1
  have hact : InOrder s (s.event e).queue → ∀ p, (s.event e).kind.effectAt = some p →
      x.MayAct p → MayStart s e := by
    intro hq _ _ _
    rw [hqe] at hq
    rcases hrest with ⟨es, h, -⟩ | ⟨-, es, h, -⟩
    · exact absurd (h.symm.trans (hempty hq)) (by simp)
    · exact fun i hi => .inl (ho.allDone_head hs hq (hout.trans (by rw [h, List.cons_append])) i hi)
  have ht := (exec_spec (hs.event e).core hok hret).touches
  have hord := exec_ordered hok hpast hwait (ho.event e he).status ret
  have ho1 := ho.execStep hs he hret hok hpast hwait hact
  have hw1 : ((cl_event_exec s e ret x).1.queue q).worker = .busy (some x) submit complete := by
    rw [ht.worker, hw]
  have he1 : e < (cl_event_exec s e ret x).1.eventNum := by rwa [ht.eventNum]
  have hqe1 : ((cl_event_exec s e ret x).1.event e).queue = q := by
    obtain ⟨st, ds, hev, -⟩ := ht.event
    rw [hev, Function.update_self]
    exact hqe
  -- the event goes on and its list stays, or it is over and leaves the list
  unfold execInWorker
  rcases hr : cl_event_exec s e ret x with ⟨s1, x' | v⟩
  · have hgo := hord.goes_on x' (by rw [hr])
    rw [hr] at ho1 hw1 hgo
    refine ho1.setWorker (fun f sub comp h => ?_) (fun y sub comp h e' hhead' => ?_) ?_ ?_
    · obtain ⟨-, rfl, rfl⟩ := Worker.busy.inj h
      exact (ho1.queue q).submit _ _ _ hw1
    · obtain ⟨hy, rfl, rfl⟩ := Worker.busy.inj h
      obtain rfl := Option.some_inj.mp hy
      obtain rfl := Option.some_inj.mp (hhead.symm.trans hhead')
      exact hgo.1
    · rw [hw1]
      exact List.suffix_rfl
    · rw [hw1]
      exact fun _ h _ => h
  · rw [hr] at ho1 hw1 he1 hqe1
    have ho2 : Ordered (s1.setPc e pc) := by
      refine ho1.setPc he1 ?_ ?_ fun _ => ?_
      · rcases hrest with ⟨_, -, -, rfl⟩ | ⟨-, _, -, -, rfl⟩ <;> exact fun _ => rfl
      · rcases hrest with ⟨_, -, -, rfl⟩ | ⟨-, _, -, -, rfl⟩ <;> simp
      · rw [hqe1]
        unfold Queue.outstanding
        rw [hw1]
        exact List.mem_append_left _ hmem
    have hw2 : ((s1.setPc e pc).queue q).worker = .busy (some x) submit complete := hw1
    obtain ⟨hsub2, hempty2⟩ := (ho2.queue q).submit _ _ _ hw2
    rcases hrest with ⟨es, rfl, rfl, -⟩ | ⟨rfl, es, rfl, rfl, rfl⟩
    · refine ho2.setWorker (fun f sub comp h => ?_) (fun y sub comp h => absurd h (by simp)) ?_ ?_
      · obtain ⟨-, rfl, rfl⟩ := Worker.busy.inj h
        exact ⟨fun e' h => hsub2 e' (List.mem_cons_of_mem _ h),
          fun hq => absurd (hempty2 hq) (by simp)⟩
      · rw [hw2]
        exact List.suffix_rfl
      · rw [hw2]
        exact fun _ h _ => h
    · refine ho2.setWorker (fun f sub comp h => ?_) (fun y sub comp h => absurd h (by simp)) ?_ ?_
      · obtain ⟨-, rfl, rfl⟩ := Worker.busy.inj h
        exact ⟨fun e' h => absurd h (by simp), fun _ => rfl⟩
      · rw [hw2]
        exact List.suffix_cons e es
      · -- the finished event is the only one that leaves the list
        rw [hw2]
        intro e' h hpc'
        rcases List.mem_cons.mp h with rfl | h
        · simp [State.setPc, State.setEvent] at hpc'
        · exact h

theorem work_ordered (ho : Ordered s) (hs : Inv s) {q : ℕ} {ret : ℤ} (hret : ret ≤ CL_SUCCESS)
    (hwait : ∀ r ∈ (s.queue q).worker.running, waits s r.1 r.2 = false)
    (h : work s q ret = some s') : Ordered s' := by
  obtain ⟨-, hsubmit, -, -⟩ := ho.queue q
  have hstart : ∀ submit complete t, (s.queue q).worker = .busy none submit complete →
      Ordered (setWorker s q (.busy (some (.start t false)) submit complete)) := by
    intro submit complete t hw
    refine ho.setWorker (fun f sub comp h => ?_) (fun y sub comp h e' _ => ?_) ?_ ?_
    · obtain ⟨-, rfl, rfl⟩ := Worker.busy.inj h
      exact hsubmit _ _ _ hw
    · obtain ⟨hy, -, -⟩ := Worker.busy.inj h
      obtain rfl := Option.some_inj.mp hy
      trivial
    · rw [hw]
      exact List.suffix_rfl
    · rw [hw]
      exact fun _ h _ => h
  unfold work at h
  split at h
  · cases h
  · rename_i e submit complete hw
    exact Option.some_inj.mp h ▸ hstart _ _ _ hw
  · rename_i e complete hw
    exact Option.some_inj.mp h ▸ hstart _ _ _ hw
  · rename_i hw
    rw [Option.some_inj] at h
    refine h ▸ ho.setWorker (by simp) (by simp) ?_ ?_
    · exact List.nil_suffix
    · rw [hw]
      exact fun _ h _ => h
  · rename_i x e submit complete hw
    rw [Option.some_inj] at h
    exact h ▸ execInWorker_ordered ho hs hret (hwait (e, x) (by simp [hw, Worker.running])) hw
      (.inl ⟨submit, rfl, rfl, rfl⟩)
  · rename_i x e complete hw
    rw [Option.some_inj] at h
    exact h ▸ execInWorker_ordered ho hs hret (hwait (e, x) (by simp [hw, Worker.running])) hw
      (.inr ⟨rfl, complete, rfl, rfl, rfl⟩)
  · cases h

/-- The device finishes its oldest batch. -/
theorem finish_ordered (ho : Ordered s) {e : ℕ} {device : List ℕ} (hd : s.device = e :: device) :
    Ordered { s with device := device, performed := s.performed ++ [e] } := by
  have he : e < s.eventNum := ho.lt_of_device (by simp [hd])
  have hg : Grows s { s with device := device, performed := s.performed ++ [e] } := by
    refine ⟨fun e' h => List.mem_append_left _ h, fun e' h => ?_, fun _ _ => rfl, fun _ _ => rfl⟩
    rw [hd] at h
    rcases List.mem_cons.mp h with rfl | h
    · exact .inl (by simp)
    · exact .inr h
  have hok := ho.event e he
  refine ho.change he rfl (fun _ _ => rfl) (fun _ _ => rfl) ⟨rfl, rfl, rfl⟩ id
    (fun _ => ⟨rfl, rfl, rfl⟩) (.inr ⟨rfl, fun hq i hi => ?_⟩) (.inr (.inl ⟨hd, by simp⟩))
    (hok.status.mono hg he rfl) (fun x enqueue hpc => ?_) hok.queued
  · exact (ho.device [] e device hd hq i hi).resolve_right (by simp)
  · obtain ⟨hp, hall⟩ := hok.exec x enqueue hpc
    exact ⟨hp.mono hg he, hall⟩

theorem next_ordered {a : Action} (h : next s a = some s') (hover : overtakes s a = false)
    (hs : Inv s) (ho : Ordered s) : Ordered s' := by
  cases a
  all_goals simp only [next, Option.ite_none_right_eq_some, Option.some_inj] at h
  case createUser => exact h ▸ ho.add hs (by simp) (.inl rfl) (.inr rfl)
  case setUser e st => exact h.2 ▸ setUser_ordered ho h.1.1 h.1.2.1
  case call q kind wait => exact h.2 ▸ enter_ordered ho hs
  case callAll q kind => exact h.2 ▸ enter_ordered ho hs
  case callNext prev wait => exact h.2 ▸ enter_ordered ho hs
  case create e => exact h.2 ▸ create_ordered ho hs h.1
  case check e =>
    refine h.2 ▸ ho.setPc (hs.lt_eventNum (by simp [h.1])) (by simp [h.1, Pc.hasReturned]) ?_ ?_
    · split <;> simp
    · split <;> simp
  case abort e =>
    exact h.2 ▸ ho.setPc (hs.lt_eventNum (by simp [h.1])) (by simp [h.1, Pc.hasReturned]) (by simp)
      (by simp)
  case proceed e =>
    split at h
    · rename_i hpc
      rw [Option.some_inj] at h
      exact h ▸ proceed_ordered ho hs hpc hover
    · cases h
  case exec e ret =>
    split at h
    · rename_i hpc
      simp only [Option.ite_none_right_eq_some, Option.some_inj] at h
      exact h.2 ▸ execInCall_ordered ho hs hpc h.1.1 h.1.2
    · cases h
  case enqueue e => exact h.2 ▸ enqueue_ordered ho hs h.1
  case collect q picked => exact h.2 ▸ collect_ordered ho h.1.1
  case work q ret => exact work_ordered ho hs h.1.1 h.1.2 h.2
  case finish =>
    split at h
    · cases h
    · rename_i hd
      rw [Option.some_inj] at h
      exact h ▸ finish_ordered ho hd

end Steps

/-! ### The result -/

/-- **Order of an in-order queue.**  In every state of every run in which no call
overtakes the worker: when the side effect of a command of an in-order queue has been
performed, the commands enqueued before it on the queue are done, that is, their side
effects have been performed, or they have none, or they have ended with an error. -/
theorem in_order (outOfOrder : ℕ → Bool) (as : List Action) (s : State)
    (hrun : exec next (init outOfOrder) as = some s)
    (hmeet : StepsMeet next (fun s a => overtakes s a = false) (init outOfOrder) as) :
    ∀ j ∈ s.performed, (s.queue (s.event j).queue).outOfOrder = false →
      ∀ i ∈ (s.event j).before, Done s i := by
  have ⟨_, ho⟩ : Inv s ∧ Ordered s :=
    exec_invariant_of_steps (I := fun s => Inv s ∧ Ordered s)
      (fun h hC ⟨hs, ho⟩ => ⟨next_inv h hs, next_ordered h hC hs ho⟩) hrun hmeet
      ⟨init_inv outOfOrder, init_ordered outOfOrder⟩
  intro j hj hmode
  have hlt : j < s.eventNum := by
    by_contra h
    exact (ho.fresh j (by omega)).1 hj
  exact (ho.event j hlt).performed hj hmode

/-- A transfer that waits for a user event is queued. -/
def waitingTransfer : List Action :=
  [Action.createUser, .call 0 .transfer [0], .create 1, .check 1, .proceed 1] ++
    List.replicate 3 (Action.exec 1 0) ++ [Action.enqueue 1]

/-- A second transfer finds the first one in the list and is queued behind it. -/
def queuedRun : List Action :=
  waitingTransfer ++ [Action.call 0 .transfer [], .create 2, .check 2, .proceed 2] ++
    List.replicate 3 (Action.exec 2 0) ++
    [Action.enqueue 2, .setUser 0 CL_COMPLETE, .collect 0 []] ++
    List.replicate 18 (Action.work 0 0)

theorem in_order_queuedRun :
    ∃ s, exec next (init fun _ => false) queuedRun = some s ∧ s.performed = [1, 2] ∧
      (s.event 2).before = [1] ∧ Done s 1 := by
  have hmeet : StepsMeet next (fun s a => overtakes s a = false) (init fun _ => false)
      queuedRun := by decide +kernel
  have hrun : (exec next (init fun _ => false) queuedRun).map (fun s =>
      (s.performed, (s.event 2).before, (s.queue (s.event 2).queue).outOfOrder)) =
        some ([1, 2], [1], false) := by decide +kernel
  obtain ⟨s, hs, heq⟩ := Option.map_eq_some_iff.mp hrun
  simp only [Prod.mk.injEq] at heq
  obtain ⟨hperf, hbefore, hmode⟩ := heq
  refine ⟨s, hs, hperf, hbefore, ?_⟩
  exact in_order (fun _ => false) queuedRun s hs hmeet 2 (by simp [hperf]) hmode 1
    (by simp [hbefore])

/-- The worker has taken the first transfer off the list, but not started it, when
the second one is enqueued. -/
def overtakingRun : List Action :=
  waitingTransfer ++ [Action.setUser 0 CL_COMPLETE, .collect 0 [], .call 0 .transfer [], .create 2,
    .check 2, .proceed 2] ++ List.replicate 9 (Action.exec 2 0)

/-- The second transfer is performed by its call, the first one is still to come. -/
theorem overtaking_transfer :
    ∃ s, exec next (init fun _ => false) overtakingRun = some s ∧ s.performed = [2] ∧
      (s.event 2).before = [1] ∧ (s.event 1).kind = .transfer ∧
      (s.event 1).status = CL_QUEUED := by
  have hrun : (exec next (init fun _ => false) overtakingRun).map (fun s =>
      (s.performed, (s.event 2).before, (s.event 1).kind, (s.event 1).status)) =
        some ([2], [1], .transfer, CL_QUEUED) := by decide +kernel
  obtain ⟨s, hs, heq⟩ := Option.map_eq_some_iff.mp hrun
  exact ⟨s, hs, by simpa using heq⟩

end Runtime.CommandQueue
