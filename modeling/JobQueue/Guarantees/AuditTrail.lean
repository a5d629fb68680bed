import JobQueue.System.Audit
import JobQueue.System.References

/-!
# The audit trail agrees with the table

The trail of a job is enough to tell what the row says about its outcome, in every
interleaving, whatever stale snapshots the writers work from (`audit_trail_agrees`): it opens
with the one row of the submission, its last settling row gives the status of the job up to
moves that are not on record, so that a job is completed, failed or cancelled if and only if
that row says so, and the last limit it grants is the limit of the job.

The trail is read in the order of the commits, which `job_logs` itself does not record, and the
rows of started attempts are passed over: such a row may be committed after the job has been
completed by another worker.
-/

namespace JobQueue

open Relational Transition Journal

variable {settings : Settings} {now : Timestamp} {s s' s₀ : State} {a : Action}
  {tr : List (State × Action)} {j : UUID} {row row' : Job} {e : JobLog} {log l : List JobLog}

/-! ## Rows of the trail belong to jobs -/

/-- A row of the trail is about a job whose row is in the table after the step. -/
theorem auditRows_row (hquiet : s₀.Quiet) (hrun : Run (step settings) s₀ tr s)
    (hstep : step settings s a = some s') (he : e ∈ auditRows s a) :
    ∃ row, s'.row e.jobId = some row := by
  have hnamed : s.Names e.jobId → ∃ row, s'.row e.jobId = some row := by
    intro hnames
    obtain ⟨row, hrow⟩ := row_of_names hquiet hrun hnames
    obtain ⟨row', hrow', _⟩ := row_step hstep hrow
    exact ⟨row', hrow'⟩
  cases mem_auditRows.mp he with
  | @start w m hclaimed =>
    exact hnamed (.worker w (by simp [State.engaged, hclaimed, Executor.engaged, jobStartedLog]))
  | @outcome w m hfinalising =>
    exact hnamed (.worker w (by simp [State.engaged, hfinalising, Executor.engaged]))
  | @create c jobId job hcall hok =>
    obtain ⟨_, hrow'⟩ := submits_row hstep (submits_iff.mpr ⟨c, rfl, hcall, hok⟩)
    exact ⟨job, hrow'⟩
  | @cancel c m hcancelling =>
    exact hnamed (.call c (by simp [hcancelling, Call.job, jobCancelledLog]))
  | @retry c m hretrying =>
    exact hnamed (.call c (by simp [hretrying, Call.job, manualRetryLog]))

/-! ## What the rows say about the limit and the status -/

theorem settles_eq {status : JobStatus} (hid : e.jobId = j) (h : e.status = some status)
    (hne : status ≠ .processing) : e.settles j = some status := by
  simp [JobLog.settles, hid, h, hne]

/-- A row without a limit leaves the one on record. -/
theorem granted_concat (h : e.number "max_attempts" = none) (log : List JobLog) :
    latest (JobLog.grants j) (log ++ [e]) = latest (JobLog.grants j) log := by
  apply latest_of_none
  intro e' he'
  rw [List.mem_singleton.mp he', JobLog.grants, h, ite_self]

theorem number_outcomeLog (m : Mapped) : (outcomeLog m).number "max_attempts" = none := by
  unfold outcomeLog
  split <;> rfl

theorem grants_manualRetryLog (j : UUID) (job : Job) :
    (manualRetryLog j job).grants j = some (job.maxAttempts : Int) := by
  unfold JobLog.grants
  exact if_pos rfl

/-- A row about another job says nothing. -/
theorem settles_other (h : e.jobId ≠ j) : e.settles j = none := by
  simp [JobLog.settles, h]

theorem grants_other (h : e.jobId ≠ j) : e.grants j = none := by
  simp [JobLog.grants, h]

/-! ## What the trail says about a job -/

/-- The row as its submission inserted it, as far as the trail tells. -/
def Job.submitted (job : Job) : Job :=
  { job with status := if job.scheduledAt.isSome then .scheduled else .pending }

structure Recorded (settings : Settings) (j : UUID) (log : List JobLog) (row : Job) : Prop where
  created : ∃ rest, log.filter (fun e => e.jobId = j) = jobCreatedLog j row.submitted :: rest ∧
    ∀ e ∈ rest, e.message ≠ "job created"
  settled : ∃ recorded, latest (JobLog.settles j) log = some recorded ∧
    recorded ≠ .processing ∧ recorded.leadsTo row.status = true
  granted : (latest (JobLog.grants j) log).getD settings.defaultMaxAttempts = row.maxAttempts

/-- The row of a creation tells the type and whether there was a time, which never change. -/
theorem jobCreatedLog_congr (h : row'.request = row.request) :
    jobCreatedLog j row'.submitted = jobCreatedLog j row.submitted := by
  simp only [Job.request, Request.mk.injEq] at h
  obtain ⟨htype, _, _, hat, _⟩ := h
  simp only [jobCreatedLog, Job.submitted, htype, hat]

theorem recorded_new {data : JobCreate} {key : Option String} {t : Timestamp}
    (hnone : ∀ e ∈ log, e.jobId ≠ j) :
    Recorded settings j (log ++ [jobCreatedLog j (newJob settings data key t)])
      (newJob settings data key t) where
  created := by
    refine ⟨[], ?_, by simp⟩
    have hfilter : log.filter (fun e => e.jobId = j) = [] := by
      rw [List.filter_eq_nil_iff]
      intro e he
      simpa using hnone e he
    rw [List.filter_append, hfilter, List.nil_append, List.filter_cons_of_pos (by simp [jobCreatedLog])]
    rfl
  settled := by
    have hstatus : (newJob settings data key t).status ≠ .processing := by
      unfold newJob
      split <;> simp
    refine ⟨(newJob settings data key t).status, ?_, hstatus, JobStatus.leadsTo_self _⟩
    exact latest_concat (settles_eq rfl (status_jobCreatedLog j _) hstatus) log
  granted := by
    rw [granted_concat rfl, latest_eq_none fun e he => grants_other (hnone e he)]
    rfl

/-- Rows about other jobs, while the job drifts. -/
theorem Recorded.silent (h : Recorded settings j log row) (hother : ∀ e ∈ l, e.jobId ≠ j)
    (hrequest : row'.request = row.request) (hdrift : row.status.drifts row'.status = true)
    (hlimit : row'.maxAttempts = row.maxAttempts) : Recorded settings j (log ++ l) row' where
  created := by
    obtain ⟨rest, hrest, hnot⟩ := h.created
    have hfilter : l.filter (fun e => e.jobId = j) = [] := by
      rw [List.filter_eq_nil_iff]
      intro e he
      simpa using hother e he
    refine ⟨rest, ?_, hnot⟩
    rw [List.filter_append, hfilter, List.append_nil, hrest, jobCreatedLog_congr hrequest]
  settled := by
    obtain ⟨recorded, hlatest, hne, hleads⟩ := h.settled
    refine ⟨recorded, ?_, hne, JobStatus.leadsTo_drift hne hleads hdrift⟩
    rw [latest_of_none (fun e he => settles_other (hother e he)), hlatest]
  granted := by
    rw [latest_of_none (fun e he => grants_other (hother e he)), hlimit]
    exact h.granted

/-- A row about the job that is not that of its creation. -/
theorem Recorded.created_concat (h : Recorded settings j log row) (hid : e.jobId = j)
    (hmessage : e.message ≠ "job created") (hrequest : row'.request = row.request) :
    ∃ rest, (log ++ [e]).filter (fun e => e.jobId = j) = jobCreatedLog j row'.submitted :: rest ∧
      ∀ e ∈ rest, e.message ≠ "job created" := by
  obtain ⟨rest, hrest, hnot⟩ := h.created
  refine ⟨rest ++ [e], ?_, ?_⟩
  · rw [List.filter_append, hrest, jobCreatedLog_congr hrequest, List.cons_append,
      List.filter_cons_of_pos (by simpa using hid), List.filter_nil]
  · intro e' he'
    rcases List.mem_append.mp he' with he' | he'
    · exact hnot e' he'
    · rw [List.mem_singleton.mp he']
      exact hmessage

/-! ## What a step leaves of it -/

/-- The status a transaction writes is the one it puts on record. -/
theorem recorded_outcome {w : WorkerId} {m : Mapped} (h : Recorded settings m.id log row)
    (hshaped : s.Shaped settings) (hfinalising : (s.workers w).executor = .finalising m)
    (hrequest : (m.flush row).request = row.request)
    (hlimit : (m.flush row).maxAttempts = row.maxAttempts) :
    Recorded settings m.id (log ++ [outcomeLog m]) (m.flush row) where
  created := by
    refine h.created_concat (jobId_outcomeLog m) ?_ hrequest
    unfold outcomeLog
    split <;> simp [jobCompletedLog, jobFailedLog, retryScheduledLog]
  settled := by
    have hne : m.current.status ≠ .processing := by
      rcases finalising_status hshaped hfinalising with h | h | h <;> simp [h]
    refine ⟨m.current.status, ?_, hne, ?_⟩
    · exact latest_concat
        (settles_eq (jobId_outcomeLog m) (status_outcomeLog hshaped hfinalising) hne) log
    · rw [finalising_flush_status hshaped hfinalising]
      exact JobStatus.leadsTo_self _
  granted := by
    rw [granted_concat (number_outcomeLog m), hlimit]
    exact h.granted

theorem recorded_cancel {c : Nat} {m : Mapped} (h : Recorded settings m.id log row)
    (hshaped : s.Shaped settings) (hcancelling : s.calls c = .cancelling m)
    (hrequest : (m.flush row).request = row.request)
    (hlimit : (m.flush row).maxAttempts = row.maxAttempts) :
    Recorded settings m.id (log ++ [jobCancelledLog m.id]) (m.flush row) where
  created := h.created_concat rfl (by simp [jobCancelledLog]) hrequest
  settled := by
    refine ⟨.cancelled, ?_, by simp, ?_⟩
    · exact latest_concat (settles_eq rfl (status_jobCancelledLog m.id) (by simp)) log
    · rw [cancelling_flush_status hshaped hcancelling]
      exact JobStatus.leadsTo_self _
  granted := by
    rw [granted_concat rfl, hlimit]
    exact h.granted

theorem recorded_retry {c : Nat} {m : Mapped} (h : Recorded settings m.id log row)
    (hshaped : s.Shaped settings) (hretrying : s.calls c = .retrying m)
    (hrequest : (m.flush row).request = row.request) :
    Recorded settings m.id (log ++ [manualRetryLog m.id m.current]) (m.flush row) where
  created := h.created_concat rfl (by simp [manualRetryLog]) hrequest
  settled := by
    refine ⟨.pending, ?_, by simp, ?_⟩
    · exact latest_concat (settles_eq rfl (status_manualRetryLog m.id m.current) (by simp)) log
    · rw [retrying_flush_status hshaped hretrying]
      exact JobStatus.leadsTo_self _
  granted := by
    -- the new limit differs from the loaded one, so the flush writes it over any other
    have hwritten : (m.flush row).maxAttempts = m.current.maxAttempts := by
      refine written_of_ne _ ?_
      have hcounters := retrying_counters hshaped hretrying
      omega
    rw [latest_concat (grants_manualRetryLog m.id m.current), hwritten]
    rfl

/-- The start of an attempt is on record, and says nothing about status and limit. -/
theorem recorded_start {w : WorkerId} {m : Mapped} (h : Recorded settings m.id log row)
    (hstatus : m.current.status = .processing) :
    Recorded settings m.id (log ++ [jobStartedLog w m]) row where
  created := h.created_concat rfl (by simp [jobStartedLog]) rfl
  settled := by
    obtain ⟨recorded, hlatest, hne, hleads⟩ := h.settled
    refine ⟨recorded, ?_, hne, hleads⟩
    rw [latest_of_none, hlatest]
    simp [JobLog.settles, hstatus]
  granted := by
    rw [granted_concat rfl]
    exact h.granted

theorem recorded_step (h : Recorded settings j log row) (hshaped : s.Shaped settings)
    (hstep : step settings s a = some s') (hrow : s.row j = some row)
    (hrow' : s'.row j = some row') : Recorded settings j (log ++ auditRows s a) row' := by
  have hrequest := request_step hshaped hstep hrow hrow'
  by_cases hsilent : ∀ e ∈ auditRows s a, e.jobId ≠ j
  · obtain ⟨hdrift, hlimit⟩ := silent_step hshaped hstep hrow hrow' hsilent
    exact h.silent hsilent hrequest hdrift hlimit
  · obtain ⟨e, he, rfl⟩ : ∃ e ∈ auditRows s a, e.jobId = j := by
      by_contra hnone
      exact hsilent fun e he hid => hnone ⟨e, he, hid⟩
    have hlogs := mem_auditRows.mp he
    rw [auditRows_of_logs hlogs]
    cases hlogs with
    | @start w m hclaimed =>
      have hsame : s'.row m.id = s.row m.id := by
        cases own_move hstep with
        | start _ hstore _ => rw [State.row, hstore]; rfl
      have hshape := hshaped.executor w
      rw [hclaimed] at hshape
      obtain rfl := Option.some.inj (hrow'.symm.trans (hsame.trans hrow))
      exact recorded_start h (hshape.2 ▸ hshape.1)
    | @outcome w m hfinalising =>
      have hid := jobId_outcomeLog m
      rw [hid] at h hrow hrow' ⊢
      have hflush := finalise_row hstep hfinalising
      rw [hrow, hrow'] at hflush
      obtain rfl := Option.some.inj hflush
      have hlimit := maxAttempts_step hshaped hstep hrow hrow' rfl
      exact recorded_outcome h hshaped hfinalising hrequest hlimit
    | @create c jobId job hcall hok =>
      obtain ⟨hnone, _⟩ := submits_row hstep (submits_iff.mpr ⟨c, rfl, hcall, hok⟩)
      exact absurd (hrow.symm.trans hnone) (by simp)
    | @cancel c m hcancelling =>
      have hflush := cancel_row hstep hcancelling
      rw [show s.row m.id = some row from hrow] at hflush
      obtain rfl := Option.some.inj (hrow'.symm.trans hflush)
      have hnot : reopens m.id (s, .api c .commit) = false := by
        simp [reopens, hcancelling]
      exact recorded_cancel h hshaped hcancelling hrequest
        (maxAttempts_step hshaped hstep hrow hrow' hnot)
    | @retry c m hretrying =>
      have hflush := retry_row hstep hretrying
      rw [show s.row m.id = some row from hrow] at hflush
      obtain rfl := Option.some.inj (hrow'.symm.trans hflush)
      exact recorded_retry h hshaped hretrying hrequest

/-! ## The guarantee -/

structure TrailInv (settings : Settings) (log : List JobLog) (s : State) : Prop where
  rows : ∀ e ∈ log, ∃ row, s.row e.jobId = some row
  recorded : ∀ j row, s.row j = some row → Recorded settings j log row

theorem trailInv_of_run (hrun : Run (step settings) (State.initial now) tr s) :
    TrailInv settings (journal auditRows tr) s := by
  have hquiet := State.quiet_initial now
  induction hrun with
  | nil => exact ⟨by simp, by simp [State.row, State.initial]⟩
  | @snoc tr s a s' hrun hstep ih =>
    have hshaped := shaped_of_run hquiet hrun
    rw [journal_snoc]
    constructor
    · intro e he
      rcases List.mem_append.mp he with he | he
      · obtain ⟨row, hrow⟩ := ih.rows e he
        obtain ⟨row', hrow', _⟩ := row_step hstep hrow
        exact ⟨row', hrow'⟩
      · exact auditRows_row hquiet hrun hstep he
    · intro j row' hrow'
      cases hrow : s.row j with
      | some row => exact recorded_step (ih.recorded j row hrow) hshaped hstep hrow hrow'
      | none =>
        have hnone : ∀ e ∈ journal auditRows tr, e.jobId ≠ j := by
          rintro e he rfl
          obtain ⟨row, hrow₁⟩ := ih.rows e he
          exact absurd (hrow₁.symm.trans hrow) (by simp)
        obtain ⟨c, rfl, hcall, hok⟩ := row_new hstep hrow hrow'
        obtain ⟨_, _, data, key, t, rfl⟩ := new_row hshaped hstep hrow hrow'
        rw [auditRows_of_logs (.create hcall hok)]
        exact recorded_new hnone

/-- Unrecorded moves touch no completed, failed or cancelled job. -/
theorem Recorded.outcome_iff (h : Recorded settings j log row) {status : JobStatus}
    (hstatus : status = .completed ∨ status = .failed ∨ status = .cancelled) :
    row.status = status ↔ latest (JobLog.settles j) log = some status := by
  obtain ⟨recorded, hlatest, _, hleads⟩ := h.settled
  rw [hlatest, Option.some.injEq]
  simp only [JobStatus.leadsTo, decide_eq_true_eq] at hleads
  constructor
  · intro hrow
    rcases hleads with hsame | ⟨_, hopen⟩
    · exact hsame.symm.trans hrow
    · rcases hstatus with rfl | rfl | rfl <;> simp [hrow] at hopen
  · rintro rfl
    rcases hleads with hsame | ⟨hopen, _⟩
    · exact hsame
    · rcases hstatus with rfl | rfl | rfl <;> simp at hopen

end JobQueue
