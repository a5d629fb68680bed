import JobQueue.Model.Process
import JobQueue.Model.Service

/-!
# The rows of `job_logs`

What each call of `append_job_log` (`app/services/job_log.py`) stages: in `submit_job`,
`cancel_job` and `manual_retry`, at the start of an attempt and with each of its outcomes.
A row's own id and creation time are left out, since the program never reads them back.

A reader of the table has the documents only, so what a row says is read off its metadata.
-/

namespace JobQueue

def JobType.value : JobType → String
  | .email => "email"
  | .webhook => "webhook"
  | .report => "report"
  | .batch => "batch"

/-! ## The rows the program writes -/

/-- A text column as a JSON value. -/
def textOrNull : Option String → Json
  | none => .null
  | some s => .str s

def jobCreatedLog (jobId : UUID) (job : Job) : JobLog :=
  ⟨jobId, .info, "job created",
    .obj [("status", .str job.status.value), ("job_type", .str job.jobType.value)]⟩

def jobStartedLog (workerId : WorkerId) (job : Mapped) : JobLog :=
  ⟨job.id, .info, "job started",
    .obj [("status", .str job.current.status.value), ("worker_id", .str workerId),
      ("attempt_count", .int job.current.attemptCount)]⟩

def jobCompletedLog (jobId : UUID) : JobLog :=
  ⟨jobId, .info, "job completed", .obj [("status", .str JobStatus.completed.value)]⟩

/-- `error_message` and `next_run_at` as the failure path has just assigned them. -/
def retryScheduledLog (jobId : UUID) (job : Job) : JobLog :=
  ⟨jobId, .warning, "retry scheduled",
    .obj [("status", .str JobStatus.pending.value), ("attempt_count", .int job.attemptCount),
      ("error_message", textOrNull job.errorMessage),
      ("next_run_at", textOrNull (job.nextRunAt.map isoformat))]⟩

def jobFailedLog (jobId : UUID) (job : Job) : JobLog :=
  ⟨jobId, .error, "job failed permanently",
    .obj [("status", .str JobStatus.failed.value), ("attempt_count", .int job.attemptCount),
      ("error_message", textOrNull job.errorMessage)]⟩

def jobCancelledLog (jobId : UUID) : JobLog :=
  ⟨jobId, .warning, "job cancelled", .obj [("status", .str JobStatus.cancelled.value)]⟩

def manualRetryLog (jobId : UUID) (job : Job) : JobLog :=
  ⟨jobId, .info, "manual retry requested",
    .obj [("status", .str JobStatus.pending.value), ("max_attempts", .int job.maxAttempts)]⟩

/-- The row staged before the commit that ends an attempt, by the function that assigned the
status. -/
def outcomeLog (m : Mapped) : JobLog :=
  match m.current.status with
  | .completed => jobCompletedLog m.id
  | .failed => jobFailedLog m.id m.current
  | _ => retryScheduledLog m.id m.current

/-! ## Reading a row -/

/-- `document[key]` -/
def Json.field (key : String) : Json → Option Json
  | .obj fields => fields.lookup key
  | _ => none

/-- `JobStatus(value)` -/
def JobStatus.ofValue (value : String) : Option JobStatus :=
  [scheduled, pending, processing, completed, failed, cancelled].find? fun status =>
    status.value = value

@[simp] theorem JobStatus.ofValue_value (status : JobStatus) :
    JobStatus.ofValue status.value = some status := by
  cases status <;> decide

namespace JobLog

def status (e : JobLog) : Option JobStatus :=
  match e.metadata.field "status" with
  | some (.str value) => JobStatus.ofValue value
  | _ => none

def number (key : String) (e : JobLog) : Option Int :=
  match e.metadata.field key with
  | some (.int n) => some n
  | _ => none

/-- The status a row about job `j` gives it; the start of an attempt leaves it as it is. -/
def settles (j : UUID) (e : JobLog) : Option JobStatus :=
  if e.jobId = j ∧ e.status ≠ some .processing then e.status else none

/-- The attempt of job `j` that a row starts. -/
def starts (j : UUID) (e : JobLog) : Option Int :=
  if e.jobId = j ∧ e.status = some .processing then e.number "attempt_count" else none

/-- The attempt of job `j` that a row says has failed. -/
def failure (j : UUID) (e : JobLog) : Option Int :=
  if e.jobId = j ∧ e.status ≠ some .processing then e.number "attempt_count" else none

/-- The limit of attempts that a row grants job `j`. -/
def grants (j : UUID) (e : JobLog) : Option Int :=
  if e.jobId = j then e.number "max_attempts" else none

end JobLog

/-! ## What the rows say -/

section

variable (j : UUID) (job : Job) (m : Mapped) (w : WorkerId)

@[simp] theorem status_jobCreatedLog : (jobCreatedLog j job).status = some job.status :=
  JobStatus.ofValue_value job.status

@[simp] theorem status_jobStartedLog : (jobStartedLog w m).status = some m.current.status :=
  JobStatus.ofValue_value m.current.status

@[simp] theorem status_jobCompletedLog : (jobCompletedLog j).status = some .completed :=
  JobStatus.ofValue_value .completed

@[simp] theorem status_retryScheduledLog : (retryScheduledLog j job).status = some .pending :=
  JobStatus.ofValue_value .pending

@[simp] theorem status_jobFailedLog : (jobFailedLog j job).status = some .failed :=
  JobStatus.ofValue_value .failed

@[simp] theorem status_jobCancelledLog : (jobCancelledLog j).status = some .cancelled :=
  JobStatus.ofValue_value .cancelled

@[simp] theorem status_manualRetryLog : (manualRetryLog j job).status = some .pending :=
  JobStatus.ofValue_value .pending

end

end JobQueue
