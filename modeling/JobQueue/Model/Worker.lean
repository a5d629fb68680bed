import JobQueue.Model.Settings
import JobQueue.Model.Text

/-!
# What a worker does to a job

The statements of `app/worker/claim.py` and the in-memory changes of
`app/worker/executor.py` and `app/worker/retry.py`. `now` is the database's `now()`, the
start of the transaction; `clock` is `datetime.now(UTC)` as the worker read it.
-/

namespace JobQueue

open Relational

/-! ## Claim and lease renewal -/

/-- The row a successful `claim_job` leaves. -/
def Job.claim (now clock lease : Timestamp) (workerId : WorkerId) (job : Job) : Job :=
  { job with
    status := .processing
    workerId := some workerId
    leasedUntil := some (clock + lease)
    startedAt := some now
    attemptCount := job.attemptCount + 1 }

/-- Conditionally claim a pending job: the new row if this worker won, `none` if it is
already taken, cancelled or not yet due. -/
def claimJob (jobs : Jobs) (now clock : Timestamp) (jobId : UUID) (workerId : WorkerId)
    (lease : Timestamp) : Jobs × Option Job :=
  Table.updateWhere jobs jobId (Job.ready now) (Job.claim now clock lease workerId)

/-- The `WHERE` clause of `renew_job_lease` past the primary key. -/
def Job.heldBy (workerId : WorkerId) (job : Job) : Bool :=
  job.status = .processing ∧ job.workerId = some workerId

/-- Extend `leased_until` of a job this worker still owns; whether a row was found. -/
def renewJobLease (jobs : Jobs) (clock : Timestamp) (jobId : UUID) (workerId : WorkerId)
    (lease : Timestamp) : Jobs × Bool :=
  let renewed := Table.updateWhere jobs jobId (Job.heldBy workerId) fun job =>
    { job with leasedUntil := some (clock + lease) }
  (renewed.1, renewed.2.isSome)

/-! ## Failure -/

/-- Wait after a failed attempt before the next run. -/
def backoffSeconds (settings : Settings) (attemptCount : Nat) : Timestamp :=
  if attemptCount = 1 then settings.retryBackoffAfterAttempt1
  else settings.retryBackoffAfterAttempt2

def shouldRetry (attemptCount maxAttempts : Nat) : Bool := attemptCount < maxAttempts

/-- The assignments `apply_failure` makes on both of its branches. -/
def recordFailure (errorMessage : String) (job : Job) : Job :=
  { job with
    errorMessage := some errorMessage
    leasedUntil := none
    workerId := none
    result := none }

/-- The branch that schedules a retry. -/
def scheduleRetry (settings : Settings) (now : Timestamp) (job : Job) : Job :=
  { job with
    status := .pending
    nextRunAt := some (now + backoffSeconds settings job.attemptCount)
    startedAt := none
    completedAt := none }

/-- The branch that marks the job permanently failed. -/
def failPermanently (now : Timestamp) (job : Job) : Job :=
  { job with
    status := .failed
    nextRunAt := none
    completedAt := some now }

/-- Which branch is taken. -/
def retries (permanent : Bool) (job : Job) : Bool :=
  !permanent && shouldRetry job.attemptCount job.maxAttempts

/-- The assignments of `apply_failure` to the instance, before its commit. -/
def applyFailure (settings : Settings) (now : Timestamp) (errorMessage : String)
    (permanent : Bool) (job : Job) : Job :=
  if retries permanent job then scheduleRetry settings now (recordFailure errorMessage job)
  else failPermanently now (recordFailure errorMessage job)

/-- An exception: the name of its class and `str(exc)`. -/
structure PyException where
  typeName : String
  text : String
  deriving DecidableEq

/-- Store a short error for API clients. -/
def safeErrorMessage (exc : PyException) : String :=
  let msg := strip exc.text
  truncateTo 1000 (if msg.isEmpty then exc.typeName else msg)

/-- How the `try` block around the handler ends when it does not complete the job, in the
order of the `except` clauses. -/
inductive Raised
  | timeout
  | unknownJobType (exc : PyException)
  | handlerError (exc : PyException)
  | other (exc : PyException)
  deriving DecidableEq

def Raised.errorMessage (settings : Settings) : Raised → String
  | .timeout => "timed out after " ++ settings.jobTimeoutText ++ "s"
  | .unknownJobType exc | .handlerError exc | .other exc => safeErrorMessage exc

/-- An unknown job type will not succeed on retry. -/
def Raised.permanent : Raised → Bool
  | .unknownJobType _ => true
  | _ => false

/-- The `except` clause that takes the exception, up to its commit. -/
def Raised.apply (settings : Settings) (now : Timestamp) (raised : Raised) (job : Job) : Job :=
  applyFailure settings now (raised.errorMessage settings) raised.permanent job

/-! ## Completion and progress -/

/-- The assignments of `_complete_job`, before its commit. -/
def completeJob (now : Timestamp) (result : Json) (job : Job) : Job :=
  { job with
    status := .completed
    result := some result
    progressPct := 100
    completedAt := some now
    errorMessage := none
    nextRunAt := none
    leasedUntil := none }

/-- The assignment of `_report_progress`, before its commit. -/
def reportProgress (pct : Int) (job : Job) : Job :=
  { job with progressPct := max 0 (min 100 pct) }

/-! ## What the failure path leaves in the instance -/

section

variable (settings : Settings) (now : Timestamp) (msg : String) (permanent : Bool) (job : Job)

theorem applyFailure_status :
    (applyFailure settings now msg permanent job).status =
      if retries permanent job then .pending else .failed := by
  unfold applyFailure
  split <;> rfl

@[simp] theorem applyFailure_attemptCount :
    (applyFailure settings now msg permanent job).attemptCount = job.attemptCount := by
  unfold applyFailure
  split <;> rfl

@[simp] theorem applyFailure_maxAttempts :
    (applyFailure settings now msg permanent job).maxAttempts = job.maxAttempts := by
  unfold applyFailure
  split <;> rfl

end

end JobQueue
