import JobQueue.System.History
import JobQueue.System.Cycles

/-!
# No job is stuck

A row that is not finished always carries what one of the recovery loops selects by: a
scheduled row its time, a processing row its lease and its owner (`recoverable_of_run`).
Whatever interleaved before, one cycle of the right loop moves it on. The scheduler selects
by the application's clock and updates by the database's, so its cycle needs both past the
time of the job (`scheduler_needs_both_clocks`).
-/

namespace JobQueue

open Relational Transition

variable {settings : Settings} {s s' : State} {a : Action} {tr : List (State × Action)}
  {j : UUID} {row row' : Job} {now : Timestamp}

/-! ## The invariant -/

/-- A scheduled row has a time, a processing row a lease and an owner. -/
structure Job.Recoverable (job : Job) : Prop where
  scheduled : job.status = .scheduled → ∃ t, job.scheduledAt = some t
  processing : job.status = .processing → ∃ t w, job.leasedUntil = some t ∧ job.workerId = some w

/-- A row in another status is recoverable, whatever else it holds. -/
theorem Job.Recoverable.of_status (hs : row.status ≠ .scheduled) (hp : row.status ≠ .processing) :
    row.Recoverable :=
  ⟨fun h => absurd h hs, fun h => absurd h hp⟩

theorem Job.Recoverable.of_eq (h : row.Recoverable) (hstatus : row'.status = row.status)
    (hscheduled : row'.scheduledAt = row.scheduledAt)
    (hlease : row'.leasedUntil = row.leasedUntil) (hworker : row'.workerId = row.workerId) :
    row'.Recoverable := by
  refine ⟨?_, ?_⟩
  · rw [hstatus, hscheduled]
    exact h.scheduled
  · rw [hstatus, hlease, hworker]
    exact h.processing

/-- No write, from whatever snapshot, takes the lease or the owner from a row that it leaves
processing. -/
theorem recoverable_step (hshaped : s.Shaped settings) (hstep : step settings s a = some s')
    (hrow : s.row j = some row) (hrow' : s'.row j = some row') (h : row.Recoverable) :
    row'.Recoverable := by
  obtain ⟨row₁, hrow₁, hcase⟩ := row_step hstep hrow
  rw [hrow'] at hrow₁
  cases hrow₁
  rcases hcase with rfl | hchange
  · exact h
  · cases hchange with
    | @claim w began clock =>
      refine ⟨?_, fun _ => ⟨_, w, rfl, rfl⟩⟩
      intro hstatus
      simp [Job.claim] at hstatus
    | @report w pct m _ hexecuting =>
      have hshape := hshaped.executor w
      rw [hexecuting] at hshape
      refine h.of_eq ?_ ?_ ?_ ?_ <;> simp [Mapped.flush, reportProgress, hshape.2]
    | finalise hfinalising =>
      have hstatus := finalising_status hshaped hfinalising
      rw [← finalising_flush_status hshaped hfinalising row] at hstatus
      refine .of_status ?_ ?_
      · rcases hstatus with hs | hs | hs <;> simp [hs]
      · rcases hstatus with hs | hs | hs <;> simp [hs]
    | @renew w clock _ _ hheld =>
      simp only [Job.heldBy, decide_eq_true_eq] at hheld
      refine ⟨h.scheduled, fun _ => ⟨_, w, rfl, hheld.2⟩⟩
    | cancel hcancelling =>
      have hstatus := cancelling_flush_status hshaped hcancelling row
      exact .of_status (by simp [hstatus]) (by simp [hstatus])
    | retry hretrying =>
      have hstatus := retrying_flush_status hshaped hretrying row
      exact .of_status (by simp [hstatus]) (by simp [hstatus])
    | promote => exact .of_status (by simp [Job.promote]) (by simp [Job.promote])
    | reap => exact .of_status (by simp [Job.reap]) (by simp [Job.reap])
    | cleanup => exact h.of_eq rfl rfl rfl rfl

theorem recoverable_of_run (hrun : Run (step settings) (State.initial now) tr s) :
    ∀ j row, s.row j = some row → row.Recoverable := by
  refine hrun.induct (C := fun _ _ => True) (by simp)
    (I := fun _ s => ∀ j row, s.row j = some row → row.Recoverable) ?_ ?_
  · intro j row hrow
    simp [State.row, State.initial] at hrow
  · intro tr s a s' hrun _ ih _ hstep j row' hrow'
    have hshaped := shaped_of_run (State.quiet_initial now) hrun
    cases hrow : s.row j with
    | none =>
      obtain ⟨_, _, data, key, t, rfl⟩ := new_row hshaped hstep hrow hrow'
      cases hs : data.scheduledAt with
      | none => exact .of_status (by simp [newJob, hs]) (by simp [newJob, hs])
      | some t =>
        refine ⟨fun _ => ⟨t, by simp [newJob, hs]⟩, ?_⟩
        intro hstatus
        simp [newJob, hs] at hstatus
    | some row => exact recoverable_step hshaped hstep hrow hrow' (ih j row hrow)

/-! ## One cycle alone -/

section

variable {jobs : Jobs} {q : Redis} {limit : Nat} {order : List UUID} {t moment : Timestamp}

theorem scheduler_promotes (hrow : jobs.lookup j = some row) (hstatus : row.status = .scheduled)
    (hat : row.scheduledAt = some t) (hnow : t ≤ now) (hmoment : t ≤ moment)
    (horder : Table.Sorts jobs (Job.dueAt moment) Job.scheduledBefore order)
    (hlimit : order.length ≤ limit) :
    (promoteDueScheduled limit moment now order jobs q).1.lookup j = some row.promote := by
  have hdue : row.dueAt now = true := Job.dueAt_iff.mpr ⟨hstatus, t, hat, hnow⟩
  have hmem : j ∈ order :=
    horder.mem_iff.mpr ⟨row, hrow, Job.dueAt_iff.mpr ⟨hstatus, t, hat, hmoment⟩⟩
  rw [lookup_promoteDueScheduled, List.take_of_length_le hlimit,
    if_pos (mem_candidates.mpr (Or.inr hmem)), hrow]
  simp [hdue]

theorem feeder_feeds (hrow : jobs.lookup j = some row) (hready : row.ready now = true)
    (horder : Table.Sorts jobs (Job.ready now) Job.feedsBefore order)
    (hlimit : order.length ≤ limit) : j ∈ (promoteReadyJobs limit order jobs q).1.pending := by
  rw [promoteReadyJobs, List.take_of_length_le hlimit, mem_feed, mem_feederBatch]
  exact Or.inr ⟨horder.mem_iff.mpr ⟨row, hrow, hready⟩, row, hrow⟩

theorem reaper_reaps (hrow : jobs.lookup j = some row) (hstatus : row.status = .processing)
    (hlease : row.leasedUntil = some t) (hnow : t < now)
    (horder : Table.Sorts jobs (Job.expired now) Job.leasedBefore order)
    (hlimit : order.length ≤ limit) :
    (reapExpiredLeases limit now order jobs).1.lookup j = some row.reap := by
  have hexpired : row.expired now = true := Job.expired_iff.mpr ⟨hstatus, t, hlease, hnow⟩
  have hmem : j ∈ order := horder.mem_iff.mpr ⟨row, hrow, hexpired⟩
  rw [lookup_reapExpiredLeases, List.take_of_length_le hlimit, if_pos hmem, hrow]
  simp [hexpired]

end

/-- From any state, so from any reachable one, the maintenance process, restarted and acting
alone, moves on a job whose time has come: a scheduled or an expired job becomes pending, a
pending one is in the queue. -/
theorem recovery_run (hrow : s.row j = some row) :
    (row.dueAt s.store.now = true ∨ row.expired s.store.now = true →
      ∃ s' row', MaintenanceRun settings s s' ∧ s'.row j = some row' ∧ row'.status = .pending) ∧
    (row.ready s.store.now = true →
      ∃ s', MaintenanceRun settings s s' ∧ j ∈ s'.store.redis.pending) := by
  have hrestart : step settings s (.maintenance .restart) = some { s with maintenance := {} } := rfl
  refine ⟨?_, ?_⟩
  · rintro (hdue | hexpired)
    · obtain ⟨hstatus, t, hat, ht⟩ := Job.dueAt_iff.mp hdue
      obtain ⟨order, horder⟩ := exists_scheduler_order s.store.jobs s.store.now
      have hpromoted : (promoteDueScheduled order.length s.store.now s.store.now order
          s.store.jobs s.store.redis).1.lookup j = some row.promote :=
        scheduler_promotes hrow hstatus hat ht ht horder le_rfl
      exact ⟨_, _, .cons hrestart (promoteDueScheduled_run rfl horder), hpromoted, rfl⟩
    · obtain ⟨hstatus, t, hlease, ht⟩ := Job.expired_iff.mp hexpired
      obtain ⟨order, horder⟩ := exists_reaper_order s.store.jobs s.store.now
      have hreaped := reaper_reaps hrow hstatus hlease ht horder le_rfl
      exact ⟨_, _, .cons hrestart (reapExpiredLeases_run rfl horder), hreaped, rfl⟩
  · intro hready
    obtain ⟨order, horder⟩ := exists_feeder_order s.store.jobs s.store.now
    have hfed : j ∈ (promoteReadyJobs order.length order s.store.jobs s.store.redis).1.pending :=
      feeder_feeds hrow hready horder le_rfl
    exact ⟨_, .cons hrestart (promoteReadyJobs_run rfl horder), hfed⟩

/-! ## The guarantee -/

/-- What is promised of the row of job `j` in the state `s`: it is finished or carries what a
recovery loop selects by, and one cycle of that loop alone, at a database time `later` past
the time the row waits for and with a limit that covers its `SELECT`, moves it on. The
scheduler's cycle also needs the application's clock `moment` past that time. -/
structure State.Recovers (s : State) (j : UUID) (row : Job) : Prop where
  shape : row.status = .completed ∨ row.status = .failed ∨ row.status = .cancelled ∨
    (row.status = .scheduled ∧ ∃ t, row.scheduledAt = some t) ∨ row.status = .pending ∨
    (row.status = .processing ∧ ∃ t w, row.leasedUntil = some t ∧ row.workerId = some w)
  scheduler : ∀ later moment order limit t, row.status = .scheduled → row.scheduledAt = some t →
    t ≤ later → t ≤ moment →
    Table.Sorts s.store.jobs (Job.dueAt moment) Job.scheduledBefore order →
    order.length ≤ limit →
    ∃ row', (promoteDueScheduled limit moment later order s.store.jobs
      s.store.redis).1.lookup j = some row' ∧ row'.status = .pending
  feeder : ∀ later order limit, row.status = .pending →
    (∀ t, row.nextRunAt = some t → t ≤ later) →
    Table.Sorts s.store.jobs (Job.ready later) Job.feedsBefore order →
    order.length ≤ limit →
    j ∈ (promoteReadyJobs limit order s.store.jobs s.store.redis).1.pending
  reaper : ∀ later order limit t, row.status = .processing → row.leasedUntil = some t →
    t < later → Table.Sorts s.store.jobs (Job.expired later) Job.leasedBefore order →
    order.length ≤ limit →
    ∃ row', (reapExpiredLeases limit later order s.store.jobs).1.lookup j = some row' ∧
      row'.status = .pending

/-- No job is stuck or lost, in any reachable state. -/
theorem no_job_is_stuck (hrun : Run (step settings) (State.initial now) tr s)
    (hrow : s.row j = some row) : s.Recovers j row where
  shape := by
    have hrec := recoverable_of_run hrun j row hrow
    cases hstatus : row.status with
    | scheduled => simpa using hrec.scheduled hstatus
    | processing => simpa using hrec.processing hstatus
    | pending | completed | failed | cancelled => simp
  scheduler := by
    intro later moment order limit t hstatus hat hnow hmoment horder hlimit
    exact ⟨_, scheduler_promotes hrow hstatus hat hnow hmoment horder hlimit, rfl⟩
  feeder := by
    intro later order limit hstatus hdue horder hlimit
    exact feeder_feeds hrow (Job.ready_iff.mpr ⟨hstatus, hdue⟩) horder hlimit
  reaper := by
    intro later order limit t hstatus hlease hnow horder hlimit
    exact ⟨_, reaper_reaps hrow hstatus hlease hnow horder hlimit, rfl⟩

/-- After the late write of a worker that had been reaped. -/
theorem no_job_is_stuck_after_stale_write :
    ∃ tr s row, Run (step {}) (State.initial 0) tr s ∧ s.row 1 = some row ∧
      row.status = .pending ∧ s.Recovers 1 row := by
  obtain ⟨tr, s, hrun, _, hcheck⟩ := run_of_check (step {}) (State.initial 0)
    [.api 0 (.submit webhookRequest none), .api 0 (.insert 1),
      .api 0 .commit, .api 0 .command, .worker "w1" .dequeue, .worker "w1" (.claim 0 0),
      .worker "w1" .start, .tick 61000000, .maintenance (.reaperSelect 10 [1]),
      .maintenance (.reaperUpdate 61000000), .maintenance (.feederSelect 10 [1]),
      .maintenance .feederPush, .worker "w2" .dequeue, .worker "w2" (.claim 61000000 61000000),
      .worker "w1" (.fail .timeout 61000000), .worker "w1" .commit]
    (fun _ s => (s.row 1).any (·.status = .pending)) (by decide +kernel)
  simp only [Option.any_eq_true, decide_eq_true_eq] at hcheck
  obtain ⟨row, hrow, hstatus⟩ := hcheck
  exact ⟨tr, s, row, hrun, hrow, hstatus, no_job_is_stuck hrun hrow⟩

/-! ## Two clocks -/

/-- A job scheduled for time 10 whose Redis entry is lost. With the database at time 20 and
the application's clock behind, at time 5, a cycle of the scheduler finds nothing, whatever
its limit. -/
theorem scheduler_needs_both_clocks :
    ∃ tr s row, Run (step {}) (State.initial 0) tr s ∧ s.row 1 = some row ∧
      row.status = .scheduled ∧ row.scheduledAt = some 10 ∧
      Table.Sorts s.store.jobs (Job.dueAt 5) Job.scheduledBefore [] ∧
      ∀ limit, (promoteDueScheduled limit 5 20 [] s.store.jobs s.store.redis).1.lookup 1 =
        some row := by
  obtain ⟨tr, s, hrun, _, hcheck⟩ := run_of_check (step {}) (State.initial 0)
    [.api 0 (.submit { jobType := .webhook, payload := .obj [], scheduledAt := some 10 }
      none), .api 0 (.insert 1), .api 0 .commit, .api 0 .command]
    (fun _ s => ((s.row 1).any fun row => row.status = .scheduled ∧
        row.scheduledAt = some 10) ∧
      Table.Sorts s.store.jobs (Job.dueAt 5) Job.scheduledBefore []) (by decide +kernel)
  simp only [Option.any_eq_true, decide_eq_true_eq] at hcheck
  obtain ⟨⟨row, hrow, hstatus, hat⟩, horder⟩ := hcheck
  have hlost : step {} s (.tamper {}) = some { s with store := { s.store with redis := {} } } := rfl
  refine ⟨_, _, row, hrun.snoc hlost, hrow, hstatus, hat, horder, ?_⟩
  intro limit
  rw [lookup_promoteDueScheduled, if_neg]
  · exact hrow
  · simp [mem_candidates, Redis.dueScheduled, SortedSet.zrangebyscore, SortedSet.ordered]

end JobQueue
