import JobQueue.System.State

/-!
# The cycles of the maintenance process as runs

A cycle of the feeder, the scheduler or the reaper as one function is what its statements
come to when nothing else acts: each theorem takes the system from a state in which the loop
rests to the state the function computes, by actions of the maintenance process alone.
-/

namespace JobQueue

open Relational Transition

variable {settings : Settings} {s : State} {limit : Nat} {order : List UUID}

/-- A run by actions of the maintenance process. -/
def MaintenanceRun (settings : Settings) : State → State → Prop :=
  RunOf (step settings) fun a => ∃ b, a = .maintenance b

/-- One more action at the start. -/
theorem MaintenanceRun.cons {b : MaintenanceAction} {t s' : State}
    (hstep : step settings s (.maintenance b) = some t) (h : MaintenanceRun settings t s') :
    MaintenanceRun settings s s' := (RunOf.of_step hstep ⟨b, rfl⟩).trans h

/-- Redis and the rows as given, the rest as it is. -/
def State.put (s : State) (jobs : Jobs) (q : Redis) (p : Maintenance) : State :=
  { s with store := { s.store with jobs := jobs, redis := q }, maintenance := p }

/-! ## The feeder -/

theorem feed_run (jobs : Jobs) (q : Redis) (p : Maintenance) (batch : List (UUID × Int)) :
    MaintenanceRun settings (s.put jobs q { p with feeder := batch })
      (s.put jobs (feed q batch).1 { p with feeder := [] }) := by
  induction batch generalizing q with
  | nil => exact .refl
  | cons e batch ih => exact .cons (b := .feederPush) rfl (ih (q.enqueue e.1 e.2 true).1)

/-- `promote_ready_jobs` run alone. -/
theorem promoteReadyJobs_run (hresting : s.maintenance.feeder = [])
    (horder : Table.Sorts s.store.jobs (Job.ready s.store.now) Job.feedsBefore order) :
    MaintenanceRun settings s (s.put s.store.jobs
      (promoteReadyJobs limit order s.store.jobs s.store.redis).1 s.maintenance) := by
  obtain ⟨⟨jobs, staged, q, now⟩, workers, calls, ⟨feeder, scheduler, reaper⟩⟩ := s
  simp only at hresting horder
  subst hresting
  refine .cons (b := .feederSelect limit order) ?_
    (feed_run jobs q ⟨[], scheduler, reaper⟩ (feederBatch jobs (order.take limit)))
  simp only [step, maintenanceStep, horder, and_self, if_true]
  rfl

/-! ## The scheduler -/

theorem promoteAll_run (jobs : Jobs) (q : Redis) (p : Maintenance) (ids : List UUID) :
    MaintenanceRun settings (s.put jobs q { p with scheduler := .promoting ids })
      (s.put (promoteAll s.store.now jobs q ids).1 (promoteAll s.store.now jobs q ids).2.1
        { p with scheduler := .idle }) := by
  induction ids generalizing jobs q with
  | nil => exact .cons (b := .schedulerUpdate s.store.now) rfl .refl
  | cons jobId ids ih =>
    have hbegan : s.store.now ≤ s.store.now := le_rfl
    cases hpromoted : promoteScheduled jobs s.store.now jobId with
    | mk jobs' job =>
      cases job with
      | none =>
        have hsame : jobs' = jobs := by
          have := Table.updateWhere_of_returning_none
            (show (promoteScheduled jobs s.store.now jobId).2 = none by rw [hpromoted])
          rw [← promoteScheduled, hpromoted] at this
          exact this
        subst hsame
        rw [promoteAll, hpromoted]
        refine .cons (b := .schedulerUpdate s.store.now)
          (t := s.put jobs' q { p with scheduler := .dropping jobId ids }) ?_ ?_
        · simp [step, maintenanceStep, State.put, hpromoted]
        · exact .cons (b := .schedulerCommand) rfl (ih jobs' (q.removeScheduled jobId))
      | some job =>
        rw [promoteAll, hpromoted]
        refine .cons (b := .schedulerUpdate s.store.now)
          (t := s.put jobs' q { p with
            scheduler := .removing jobId (priorityScore job.priority job.createdAt) ids }) ?_ ?_
        · simp [step, maintenanceStep, State.put, hpromoted]
        · refine .cons (b := .schedulerCommand) rfl (.cons (b := .schedulerCommand) rfl ?_)
          exact ih jobs' _

/-- `promote_due_scheduled` run alone. -/
theorem promoteDueScheduled_run {moment : Timestamp} (hresting : s.maintenance.scheduler = .idle)
    (horder : Table.Sorts s.store.jobs (Job.dueAt moment) Job.scheduledBefore order) :
    MaintenanceRun settings s (s.put
      (promoteDueScheduled limit moment s.store.now order s.store.jobs s.store.redis).1
      (promoteDueScheduled limit moment s.store.now order s.store.jobs s.store.redis).2.1
      s.maintenance) := by
  obtain ⟨⟨jobs, staged, q, now⟩, workers, calls, ⟨feeder, scheduler, reaper⟩⟩ := s
  simp only at hresting horder
  subst hresting
  refine .cons (b := .schedulerRead moment limit) rfl (.cons (b := .schedulerSelect order) ?_
    (promoteAll_run jobs q ⟨feeder, .idle, reaper⟩
      (candidates (q.dueScheduled (timestamp moment) limit) (order.take limit))))
  simp only [step, maintenanceStep, horder, if_true]
  rfl

/-! ## The reaper -/

theorem reapAll_run (jobs : Jobs) (q : Redis) (p : Maintenance) (ids : List UUID) :
    MaintenanceRun settings (s.put jobs q { p with reaper := ids })
      (s.put (reapAll s.store.now jobs ids).1 q { p with reaper := [] }) := by
  induction ids generalizing jobs with
  | nil => exact .refl
  | cons jobId ids ih =>
    refine .cons (b := .reaperUpdate s.store.now) ?_ (ih (reapOne jobs s.store.now jobId).1)
    simp [step, maintenanceStep, State.put]

/-- `reap_expired_leases` run alone. -/
theorem reapExpiredLeases_run (hresting : s.maintenance.reaper = [])
    (horder : Table.Sorts s.store.jobs (Job.expired s.store.now) Job.leasedBefore order) :
    MaintenanceRun settings s (s.put
      (reapExpiredLeases limit s.store.now order s.store.jobs).1 s.store.redis
      s.maintenance) := by
  obtain ⟨⟨jobs, staged, q, now⟩, workers, calls, ⟨feeder, scheduler, reaper⟩⟩ := s
  simp only at hresting horder
  subst hresting
  refine .cons (b := .reaperSelect limit order) ?_
    (reapAll_run jobs q ⟨feeder, scheduler, []⟩ (order.take limit))
  simp only [step, maintenanceStep, horder, and_self, if_true]
  rfl

end JobQueue
