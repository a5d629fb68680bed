import JobQueue.Guarantees.Recovery
import JobQueue.System.Draining

/-!
# No reachable state is a dead end

Whatever has happened, with workers crashed in the middle of an attempt and Redis as it may
be, one idle worker and the maintenance process suffice: once every time that a row waits
for has passed, a cycle of the scheduler and one of the reaper make every unfinished job
pending, a cycle of the feeder puts it in the queue, and the worker empties the queue. Each
unfinished job whose handler succeeds is then completed by exactly one more attempt.
-/

namespace JobQueue

open Relational Transition

variable {settings : Settings} {s s' : State} {w : WorkerId} {j : UUID} {row : Job}
  {now later : Timestamp} {tr : List (State × Action)}

/-- The status is one that no loop and no worker takes up. -/
def JobStatus.finished : JobStatus → Bool
  | .completed | .failed | .cancelled => true
  | _ => false

/-! ## Waking the rows -/

/-- What a cycle of the scheduler and one of the reaper make of a row. -/
def Job.wake (later : Timestamp) (row : Job) : Job :=
  if row.dueAt later then row.promote else if row.expired later then row.reap else row

/-- Every time that a row waits for has passed. -/
structure Job.Overdue (later : Timestamp) (row : Job) : Prop where
  scheduled : ∀ t, row.scheduledAt = some t → t ≤ later
  leased : ∀ t, row.leasedUntil = some t → t < later
  retried : ∀ t, row.nextRunAt = some t → t ≤ later

theorem Job.wake_of_finished (h : row.status.finished = true) : row.wake later = row := by
  have hdue : row.dueAt later = false := by
    cases hs : row.status <;> simp_all [JobStatus.finished, Job.dueAt]
  have hexpired : row.expired later = false := by
    cases hs : row.status <;> simp_all [JobStatus.finished, Job.expired]
  simp [Job.wake, hdue, hexpired]

theorem Job.not_ready_of_finished (h : row.status.finished = true) : row.ready later = false := by
  cases hs : row.status <;> simp_all [JobStatus.finished, Job.ready]

theorem Job.unfinished_of_ready_wake (hready : (row.wake later).ready later = true) :
    row.status.finished = false := by
  by_contra hfinished
  rw [Bool.not_eq_false] at hfinished
  rw [Job.wake_of_finished hfinished, Job.not_ready_of_finished hfinished] at hready
  cases hready

/-- What a handler reads of a row is not touched by the loops that wake it. -/
theorem Job.wake_kept (later : Timestamp) (row : Job) :
    (row.wake later).jobType = row.jobType ∧ (row.wake later).payload = row.payload ∧
      (row.wake later).attemptCount = row.attemptCount := by
  unfold Job.wake
  split
  · exact ⟨rfl, rfl, rfl⟩
  · split
    · exact ⟨rfl, rfl, rfl⟩
    · exact ⟨rfl, rfl, rfl⟩

/-- A row that a recovery loop can find is ready once its times have passed. -/
theorem Job.ready_wake (hrec : row.Recoverable) (hoverdue : row.Overdue later)
    (h : row.status.finished = false) : (row.wake later).ready later = true := by
  cases hs : row.status with
  | scheduled =>
    obtain ⟨t, ht⟩ := hrec.scheduled hs
    have hdue : row.dueAt later = true := Job.dueAt_iff.mpr ⟨hs, t, ht, hoverdue.scheduled t ht⟩
    simp [Job.wake, hdue, Job.promote, Job.ready]
  | processing =>
    obtain ⟨t, _, ht, _⟩ := hrec.processing hs
    have hdue : row.dueAt later = false := by simp [Job.dueAt, hs]
    have hexpired : row.expired later = true :=
      Job.expired_iff.mpr ⟨hs, t, ht, hoverdue.leased t ht⟩
    simp [Job.wake, hdue, hexpired, Job.reap, Job.ready]
  | pending =>
    have hdue : row.dueAt later = false := by simp [Job.dueAt, hs]
    have hexpired : row.expired later = false := by simp [Job.expired, hs]
    have hwake : row.wake later = row := by simp [Job.wake, hdue, hexpired]
    rw [hwake]
    exact Job.ready_iff.mpr ⟨hs, hoverdue.retried⟩
  | completed | failed | cancelled => simp [hs, JobStatus.finished] at h

/-- There is a time, at or after any given one, at which every row of a table is overdue. -/
theorem exists_overdue (jobs : Jobs) (now : Timestamp) :
    ∃ later, now ≤ later ∧ ∀ j row, jobs.lookup j = some row → row.Overdue later := by
  obtain ⟨a, ha⟩ := Table.exists_le_column jobs Job.scheduledAt
  obtain ⟨b, hb⟩ := Table.exists_le_column jobs Job.leasedUntil
  obtain ⟨c, hc⟩ := Table.exists_le_column jobs Job.nextRunAt
  refine ⟨max now (max a (max (b + 1) c)), le_max_left _ _, ?_⟩
  intro j row hrow
  refine ⟨?_, ?_, ?_⟩
  · intro t ht
    exact (ha j row t hrow ht).trans (le_max_of_le_right (le_max_left _ _))
  · intro t ht
    have hlease : t < b + 1 := Int.lt_add_one_of_le (hb j row t hrow ht)
    exact hlease.trans_le (le_max_of_le_right (le_max_of_le_right (le_max_left _ _)))
  · intro t ht
    exact (hc j row t hrow ht).trans
      (le_max_of_le_right (le_max_of_le_right (le_max_right _ _)))

/-! ## One cycle of each loop -/

theorem lookup_promoteDueScheduled_all {jobs : Jobs} {order : List UUID}
    (horder : Table.Sorts jobs (Job.dueAt later) Job.scheduledBefore order) (q : Redis) (j : UUID) :
    (promoteDueScheduled order.length later later order jobs q).1.lookup j =
      (jobs.lookup j).map fun row => if row.dueAt later then row.promote else row := by
  rw [lookup_promoteDueScheduled, List.take_length]
  split
  · rfl
  · rename_i hnot
    cases hrow : jobs.lookup j with
    | none => rfl
    | some row =>
      have hdue : ¬ row.dueAt later = true := fun hdue =>
        hnot (mem_candidates.mpr (Or.inr (horder.mem_iff.mpr ⟨row, hrow, hdue⟩)))
      rw [Option.map_some, if_neg hdue]

theorem lookup_reapExpiredLeases_all {jobs : Jobs} {order : List UUID}
    (horder : Table.Sorts jobs (Job.expired later) Job.leasedBefore order) (j : UUID) :
    (reapExpiredLeases order.length later order jobs).1.lookup j =
      (jobs.lookup j).map fun row => if row.expired later then row.reap else row := by
  rw [lookup_reapExpiredLeases, List.take_length]
  split
  · rfl
  · rename_i hnot
    cases hrow : jobs.lookup j with
    | none => rfl
    | some row =>
      have hexpired : ¬ row.expired later = true := fun hexpired =>
        hnot (horder.mem_iff.mpr ⟨row, hrow, hexpired⟩)
      rw [Option.map_some, if_neg hexpired]

/-- The scheduler and the reaper, with limits that cover their `SELECT`s, wake every row, and
the feeder then has every ready one in the queue. -/
theorem wake_run (settings : Settings) (s : State) :
    ∃ jobs q, MaintenanceRun settings s (s.put jobs q {}) ∧
      (∀ j, jobs.lookup j = (s.row j).map (Job.wake s.store.now)) ∧
      ∀ j row, jobs.lookup j = some row → row.ready s.store.now = true → j ∈ q.pending := by
  have hrestart : step settings s (.maintenance .restart) =
      some (s.put s.store.jobs s.store.redis {}) := rfl
  obtain ⟨due, hdue⟩ := exists_scheduler_order s.store.jobs s.store.now
  let promoted := promoteDueScheduled due.length s.store.now s.store.now due s.store.jobs
    s.store.redis
  have hpromote : MaintenanceRun settings (s.put s.store.jobs s.store.redis {})
      (s.put promoted.1 promoted.2.1 {}) := promoteDueScheduled_run rfl hdue
  obtain ⟨expired, hexpired⟩ := exists_reaper_order promoted.1 s.store.now
  let reaped := reapExpiredLeases expired.length s.store.now expired promoted.1
  have hreap : MaintenanceRun settings (s.put promoted.1 promoted.2.1 {})
      (s.put reaped.1 promoted.2.1 {}) := reapExpiredLeases_run rfl hexpired
  obtain ⟨ready, hready⟩ := exists_feeder_order reaped.1 s.store.now
  have hfeed : MaintenanceRun settings (s.put reaped.1 promoted.2.1 {})
      (s.put reaped.1 (promoteReadyJobs ready.length ready reaped.1 promoted.2.1).1 {}) :=
    promoteReadyJobs_run rfl hready
  refine ⟨reaped.1, _, .cons hrestart (hpromote.trans (hreap.trans hfeed)), ?_, ?_⟩
  · intro j
    rw [lookup_reapExpiredLeases_all hexpired, lookup_promoteDueScheduled_all hdue, Option.map_map]
    show Option.map _ (s.row j) = _
    congr 1
    funext row
    cases hd : row.dueAt s.store.now with
    | false => simp [Job.wake, hd]
    | true => simp [Job.wake, hd, Job.promote, Job.expired]
  · intro j row hrow hr
    exact feeder_feeds hrow hr hready le_rfl

/-! ## The guarantee -/

/-- The next attempt of a job succeeds: its handler makes these `reports`, it returns `result`,
and its pauses are over before the timeout. -/
structure Job.Succeeds (settings : Settings) (env : Ambient) (hex : String) (j : UUID) (row : Job)
    (reports : List Int) (result : Json) : Prop where
  returns : runHandler env hex j { row with attemptCount := row.attemptCount + 1 } =
    { reports := reports, ending := .returns result }
  inTime : handlerPauses settings row < settings.jobTimeout

/-- The handler meets the job as it is now, also when the row has been woken and claimed. -/
theorem Job.Succeeds.of_claimed {env : Ambient} {hex : String} {reports : List Int}
    {result : Json} (h : row.Succeeds settings env hex j reports result)
    (clock lease : Timestamp) (w : WorkerId) :
    runHandler env hex j ((row.wake later).claim now clock lease w) =
      { reports := reports, ending := .returns result } := by
  obtain ⟨htype, hpayload, hattempts⟩ := row.wake_kept later
  rw [← h.returns]
  apply runHandler_congr env hex j
  · exact htype
  · exact hpayload
  · show (row.wake later).attemptCount + 1 = row.attemptCount + 1
    rw [hattempts]

/-- What lies between `s` and `s'` when worker `w` has worked off everything: each unfinished
job is completed by one more attempt, of `w`, with the result its handler returns; the
finished ones are as they were, no row is new and the queue is empty. -/
structure State.WorkedOff (w : WorkerId) (result : UUID → Json) (s s' : State) : Prop where
  unfinished : ∀ j row, s.row j = some row → row.status.finished = false →
    ∃ row', s'.row j = some row' ∧ row'.status = .completed ∧ row'.workerId = some w ∧
      row'.result = some (result j) ∧ row'.attemptCount = row.attemptCount + 1
  finished : ∀ j row, s.row j = some row → row.status.finished = true → s'.row j = some row
  absent : ∀ j, s.row j = none → s'.row j = none
  queue : ∀ j, j ∉ s'.store.redis.pending

/-- The reports on the unfinished jobs, and on no others. -/
def State.unfinishedReports (s : State) (reports : UUID → List Int) (j : UUID) : List Int :=
  (s.row j).elim [] fun row => if row.status.finished then [] else reports j

/-- Woken rows that were served if they were in the queue. -/
theorem workedOff_of_served {q : Redis} {result : UUID → Json}
    (hqueued : ∀ j row, s.row j = some row → row.status.finished = false →
      (row.wake later).ready later = true ∧ j ∈ q.pending)
    (hserved : ∀ j, s'.row j = if j ∈ q.pending then
        (s.row j).map fun row =>
          (row.wake later).serve later later settings.workerLease w (result j)
      else (s.row j).map (Job.wake later))
    (hempty : ∀ j, j ∉ s'.store.redis.pending) : s.WorkedOff w result s' where
  unfinished j row hrow hunfinished := by
    obtain ⟨hready, hmem⟩ := hqueued j row hrow hunfinished
    refine ⟨_, by rw [hserved, if_pos hmem, hrow, Option.map_some], ?_⟩
    rw [Job.serve_of_ready hready]
    refine ⟨rfl, rfl, rfl, ?_⟩
    show (row.wake later).attemptCount + 1 = _
    rw [(row.wake_kept later).2.2]
  finished j row hrow hfinished := by
    have hwake : row.wake later = row := Job.wake_of_finished hfinished
    have hnot : row.ready later = false := Job.not_ready_of_finished hfinished
    rw [hserved, hrow]
    split
    · rw [Option.map_some, hwake, Job.serve_of_not hnot]
    · rw [Option.map_some, hwake]
  absent j hrow := by
    rw [hserved, hrow]
    split <;> rfl
  queue := hempty

/-- The reports made on the woken rows of the queue are those on the unfinished jobs. -/
theorem reports_of_served {env : Ambient} {hex : UUID → String} {q : Redis}
    {reports : UUID → List Int} {result : UUID → Json}
    (hsucceeds : ∀ j row, s.row j = some row → row.status.finished = false →
      row.Succeeds settings env (hex j) j (reports j) (result j))
    (hqueued : ∀ j row, s.row j = some row → row.status.finished = false →
      (row.wake later).ready later = true ∧ j ∈ q.pending) (j : UUID) :
    (if j ∈ q.pending then ((s.row j).map (Job.wake later)).elim []
        (Job.reportsServed env (hex j) later later settings.workerLease w j)
      else []) = s.unfinishedReports reports j := by
  unfold State.unfinishedReports
  cases hrow : s.row j with
  | none => exact ite_self []
  | some row =>
    rw [Option.map_some, Option.elim_some, Option.elim_some, Job.reportsServed]
    cases hready : (row.wake later).ready later with
    | true =>
      have hunfinished := Job.unfinished_of_ready_wake hready
      obtain ⟨_, hmem⟩ := hqueued j row hrow hunfinished
      rw [if_pos hmem, if_pos rfl,
        (hsucceeds j row hrow hunfinished).of_claimed later settings.workerLease w]
      simp [hunfinished]
    | false =>
      have hfinished : row.status.finished = true := by
        by_contra hunfinished
        rw [Bool.not_eq_true] at hunfinished
        rw [(hqueued j row hrow hunfinished).1] at hready
        cases hready
      simp [hfinished]

/-- From every reachable state in which an executor is idle, whatever crashed before, the
system can work off all its jobs with that executor and the maintenance process alone, if the
handler of each unfinished job succeeds in its next attempt. The reports made on the way are
those of the handlers. -/
theorem backlog_can_be_completed {env : Ambient} {hex : UUID → String}
    {reports : UUID → List Int} {result : UUID → Json}
    (hrun : Run (step settings) (State.initial now) tr s)
    (hidle : (s.workers w).executor = .idle)
    (hsucceeds : ∀ j row, s.row j = some row → row.status.finished = false →
      row.Succeeds settings env (hex j) j (reports j) (result j)) :
    ∃ s', ServeRun settings env hex w (s.unfinishedReports reports) s s' ∧
      s.WorkedOff w result s' := by
  obtain ⟨later, hlater, hoverdue⟩ := exists_overdue s.store.jobs s.store.now
  -- the times pass, and the maintenance process wakes the rows and fills the queue
  let s₁ : State := { s with store := { s.store with now := later } }
  have htick : step settings s (.tick later) = some s₁ := if_pos hlater
  obtain ⟨jobs, q, hwake, hjobs, hfed⟩ := wake_run settings s₁
  replace hjobs : ∀ j, jobs.lookup j = (s.row j).map (Job.wake later) := hjobs
  have hqueued : ∀ j row, s.row j = some row → row.status.finished = false →
      (row.wake later).ready later = true ∧ j ∈ q.pending := by
    intro j row hrow hunfinished
    have hready := Job.ready_wake (recoverable_of_run hrun j row hrow) (hoverdue j row hrow)
      hunfinished
    refine ⟨hready, hfed j (row.wake later) ?_ hready⟩
    rw [hjobs, hrow, Option.map_some]
  -- the worker empties the queue
  let s₂ := s₁.put jobs q {}
  have hserve : s₂ = s₂.serve w jobs q (s.workers w) := by
    simp [s₂, s₁, State.serve, State.put]
  have hreturns : ∀ j row, jobs.lookup j = some row → row.ready later = true →
      (runHandler env (hex j) j (row.claim later later settings.workerLease w)).ending =
        .returns (result j) := by
    intro j woken hwoken hready
    rw [hjobs] at hwoken
    obtain ⟨row, hrow, rfl⟩ := Option.map_eq_some_iff.mp hwoken
    have hunfinished := Job.unfinished_of_ready_wake hready
    rw [(hsucceeds j row hrow hunfinished).of_claimed later settings.workerLease w]
  obtain ⟨jobs', q', p', _, hempty, hserved, hdrain⟩ :=
    drain_run settings s₂ w jobs hidle (SortedSet.pops_iff.mpr rfl) later hreturns
  rw [← hserve] at hdrain
  have hquiet : ServeRun settings env hex w (fun _ => []) s s₂ := by
    apply ServeRun.of_quiet
    refine (RunOf.of_step htick (Or.inr ⟨later, rfl⟩)).trans (hwake.mono ?_)
    rintro a ⟨b, rfl⟩
    exact Or.inl ⟨b, rfl⟩
  have hrows : ∀ j, (s₂.serve w jobs' q' p').row j = if j ∈ q.pending then
        (s.row j).map fun row =>
          (row.wake later).serve later later settings.workerLease w (result j)
      else (s.row j).map (Job.wake later) := by
    intro j
    show jobs'.lookup j = _
    rw [hserved, hjobs, Option.map_map]
    simp only [SortedSet.mem_keys_ordered]
    rfl
  refine ⟨_, (hquiet.trans hdrain).congr ?_, workedOff_of_served hqueued hrows hempty⟩
  intro j
  rw [List.nil_append, hjobs]
  simp only [SortedSet.mem_keys_ordered]
  exact reports_of_served hsucceeds hqueued j

/-- Handlers whose deliveries succeed. -/
def luckyAmbient : Ambient where
  random _ := 1 / 2
  printable _ := true
  shown _ := ""

/-- A batch of three items. -/
def threeItems : JobCreate :=
  { webhookRequest with
    jobType := .batch, payload := .obj [("items", .arr [.null, .null, .null])] }

/-- What the handlers of two jobs return. -/
def twoResults (j : UUID) : Json :=
  if j = 1 then Batch.processed 3
  else .obj [("status", .str "delivered"), ("url", .str "http://example.com/"),
    ("status_code", .int 200)]

/-- What they report. -/
def twoReports (j : UUID) : List Int := if j = 1 then [33, 66, 100] else []

/-- A worker died in its attempt at job 1, job 2 is scheduled, and Redis has lost everything. -/
theorem backlog_can_be_completed_after_crash :
    ∃ tr s s', Run (step {}) (State.initial 0) tr s ∧
      ((s.row 1).any (·.status = .processing) ∧ (s.row 2).any (·.status = .scheduled)) ∧
      ServeRun {} luckyAmbient (fun _ => "0123456789ab") "w2" (s.unfinishedReports twoReports)
        s s' ∧
      s.WorkedOff "w2" twoResults s' := by
  obtain ⟨tr, s, hrun, _, hcheck⟩ := run_of_check (step {}) (State.initial 0)
    [.api 0 (.submit threeItems none), .api 0 (.insert 1), .api 0 .commit, .api 0 .command,
      .api 1 (.submit { webhookRequest with
        payload := .obj [("url", .str "http://example.com/")], scheduledAt := some 10 } none),
      .api 1 (.insert 2), .api 1 .commit, .api 1 .command, .worker "w1" .dequeue,
      .worker "w1" (.claim 0 0), .worker "w1" .start, .worker "w1" (.report 33),
      .worker "w1" .crash]
    (fun _ s => ((s.row 1).any (·.status = .processing) ∧ (s.row 2).any (·.status = .scheduled)) ∧
      (s.workers "w2").executor = .idle ∧
      s.store.jobs.entries.all fun e =>
        (runHandler luckyAmbient "0123456789ab" e.1
          { e.2 with attemptCount := e.2.attemptCount + 1 }).reports = twoReports e.1 ∧
        (runHandler luckyAmbient "0123456789ab" e.1
          { e.2 with attemptCount := e.2.attemptCount + 1 }).ending = .returns (twoResults e.1) ∧
        handlerPauses {} e.2 < 30 * 10 ^ 6) (by decide +kernel)
  simp only [decide_eq_true_eq, List.all_eq_true] at hcheck
  obtain ⟨hrows, hidle, hhandlers⟩ := hcheck
  have hsucceeds : ∀ j row, s.row j = some row → row.status.finished = false →
      row.Succeeds {} luckyAmbient "0123456789ab" j (twoReports j) (twoResults j) := by
    intro j row hrow _
    obtain ⟨hreports, hreturns, hpauses⟩ := hhandlers ⟨j, row⟩ (AList.mem_lookup_iff.mp hrow)
    refine ⟨?_, hpauses⟩
    rw [← hreports, ← hreturns]
  have hlost : step {} s (.tamper {}) = some { s with store := { s.store with redis := {} } } := rfl
  obtain ⟨s', hserves, hworked⟩ := backlog_can_be_completed (hrun.snoc hlost) hidle hsucceeds
  exact ⟨_, _, s', hrun.snoc hlost, hrows, hserves, hworked⟩

end JobQueue
