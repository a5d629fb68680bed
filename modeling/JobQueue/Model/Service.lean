import JobQueue.Model.Settings
import JobQueue.Model.Text

/-!
# Job service

The business rules of `app/services/job_service.py` and `app/services/idempotency.py`:
what a submission inserts, what a page of the list holds, which jobs may be cancelled or
retried and the assignments these make to the loaded instance.
-/

namespace JobQueue

open Relational

/-! ## Idempotency keys -/

def idempotencyKeyMaxLen : Nat := 255

def idempotencyTtl : Timestamp := 24 * 3600 * 10 ^ 6

/-- A cleaned key, `none` if absent, or the text of `InvalidIdempotencyKeyError`. -/
def normalizeIdempotencyKey : Option String → Except String (Option String)
  | none => .ok none
  | some key =>
      let cleaned := strip key
      if cleaned.isEmpty then .error "idempotency key must not be empty"
      else if cleaned.length > idempotencyKeyMaxLen then
        .error ("idempotency key must be at most " ++ toString idempotencyKeyMaxLen ++
          " characters")
      else .ok (some cleaned)

def Job.hasKey (key : String) (job : Job) : Bool := job.idempotencyKey = some key

def findJobByIdempotencyKey (jobs : Jobs) (key : String) : Option UUID :=
  (Table.matching jobs (Job.hasKey key)).head?

/-- Null out keys older than the time to live. -/
def cleanupExpiredIdempotencyKeys (jobs : Jobs) (now : Timestamp) : Jobs :=
  Table.updateAll jobs
    (fun job => job.idempotencyKey.isSome ∧ job.createdAt < now - idempotencyTtl)
    (fun job => { job with idempotencyKey := none })

theorem findJobByIdempotencyKey_none {jobs : Jobs} {key : String} :
    findJobByIdempotencyKey jobs key = none ↔
      ∀ id job, jobs.lookup id = some job → job.idempotencyKey ≠ some key := by
  rw [findJobByIdempotencyKey, List.head?_eq_none_iff, List.eq_nil_iff_forall_not_mem]
  constructor
  · intro h id job hjob hkey
    exact h id (Table.mem_matching.mpr ⟨job, hjob, by simp [Job.hasKey, hkey]⟩)
  · intro h id hmem
    obtain ⟨job, hjob, hkey⟩ := Table.mem_matching.mp hmem
    exact h id job hjob (by simpa [Job.hasKey] using hkey)

theorem findJobByIdempotencyKey_some {jobs : Jobs} {key : String} {id : UUID}
    (h : findJobByIdempotencyKey jobs key = some id) :
    ∃ job, jobs.lookup id = some job ∧ job.idempotencyKey = some key := by
  obtain ⟨job, hjob, hkey⟩ := Table.mem_matching.mp (List.mem_of_head? h)
  exact ⟨job, hjob, by simpa [Job.hasKey] using hkey⟩

/-! ## Submission -/

/-- A validated request body: the payload is the normalised one. -/
structure JobCreate where
  jobType : JobType
  payload : Json
  priority : Int := 0
  scheduledAt : Option Timestamp := none
  priority_ge : -1000 ≤ priority := by decide
  priority_le : priority ≤ 1000 := by decide
  deriving DecidableEq

/-- A request with the defaults of the schema. -/
def webhookRequest : JobCreate := { jobType := .webhook, payload := .obj [] }

/-- The row `submit_job` inserts, with the server defaults of the table. -/
def newJob (settings : Settings) (data : JobCreate) (key : Option String)
    (createdAt : Timestamp) : Job where
  jobType := data.jobType
  payload := data.payload
  status := if data.scheduledAt.isSome then .scheduled else .pending
  priority := data.priority
  attemptCount := 0
  maxAttempts := settings.defaultMaxAttempts
  errorMessage := none
  progressPct := 0
  scheduledAt := data.scheduledAt
  nextRunAt := data.scheduledAt
  idempotencyKey := key
  workerId := none
  leasedUntil := none
  result := none
  createdAt := createdAt
  startedAt := none
  completedAt := none

/-- The constraints of the table that an `INSERT` under `jobId` breaks: the primary key, the
partial unique index on `idempotency_key`, the checks. -/
def violates (jobs : Jobs) (jobId : UUID) (job : Job) : Bool :=
  (jobs.lookup jobId).isSome ||
    (job.idempotencyKey.any fun key => (findJobByIdempotencyKey jobs key).isSome) ||
    job.maxAttempts = 0 || job.progressPct < 0 || 100 < job.progressPct

/-! ## Listing -/

/-- The parameters of `GET /jobs`, within the bounds the route checks. -/
structure ListQuery where
  status : Option JobStatus := none
  jobType : Option JobType := none
  limit : Nat := 50
  offset : Nat := 0
  limit_ge : 1 ≤ limit := by decide
  limit_le : limit ≤ 100 := by decide

/-- The filters of `list_jobs`. -/
def ListQuery.admits (q : ListQuery) (job : Job) : Bool :=
  (∀ status ∈ q.status, job.status = status) ∧ ∀ jobType ∈ q.jobType, job.jobType = jobType

/-- `created_at DESC` -/
def Job.listsBefore (job job' : Job) : Bool := job'.createdAt ≤ job.createdAt

/-- The page and the total matching count, where `selected` is the answer to the `SELECT` of
the page before its `LIMIT` and `OFFSET`. -/
def listJobs (jobs : Jobs) (q : ListQuery) (selected : List (UUID × Job)) :
    List (UUID × Job) × Nat :=
  ((selected.drop q.offset).take q.limit, (Table.rows jobs q.admits).length)

/-! ## Cancel and manual retry -/

/-- The errors the service raises to the API. -/
inductive ApiError
  | invalidKey (message : String)
  | notFound (message : String)
  | conflict (message : String)
  | integrity
  | redis
  deriving DecidableEq

def notFoundError (jobId : UUID) : ApiError :=
  .notFound ("job " ++ uuidText jobId ++ " not found")

/-- The check of `cancel_job` on the loaded job. -/
def Job.cancellable (job : Job) : Bool := job.status = .pending ∨ job.status = .scheduled

def cancelConflict (job : Job) : ApiError :=
  .conflict ("only pending or scheduled jobs can be cancelled (status=" ++
    job.status.value ++ ")")

/-- The assignments of `cancel_job`, before its commit. -/
def cancelJob (job : Job) : Job :=
  { job with status := .cancelled, nextRunAt := none, leasedUntil := none, workerId := none }

/-- The check of `manual_retry` on the loaded job. -/
def Job.retryable (job : Job) : Bool := job.status = .failed

def retryConflict (job : Job) : ApiError :=
  .conflict ("only failed jobs can be retried (status=" ++ job.status.value ++ ")")

/-- The assignments of `manual_retry`, before its commit. -/
def manualRetry (now : Timestamp) (job : Job) : Job :=
  { job with
    maxAttempts := job.maxAttempts + 1
    status := .pending
    nextRunAt := some now
    completedAt := none
    startedAt := none
    leasedUntil := none
    workerId := none
    errorMessage := none }

end JobQueue
