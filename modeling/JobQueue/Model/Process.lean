import JobQueue.Library.Exceptions
import JobQueue.Model.Queue
import JobQueue.Model.Worker

/-!
# One turn of the executor

`process_one` (`app/worker/executor.py`) as a program with Python's exceptions, and what a
handler may do to it. The session is that of SQLAlchemy: a statement that PostgreSQL rejects
makes `commit()` raise, rolls the transaction back and expires the instance, and from then
on every statement and every reload of an attribute is refused.

`wait_for` cancels a handler that overruns wherever it waits. Only the reporter of a batch job
waits for the session: its commit may be cancelled in the flush or at the `COMMIT`.

PostgreSQL is given by the values its columns take. No other party acts during the turn.
-/

namespace JobQueue

/-! ## Exceptions -/

/-- What the `except` clauses of `process_one` tell apart. -/
inductive ExcClass
  | timeoutError | unknownJobTypeError | handlerError | other
  deriving DecidableEq

/-- An exception: its class, the name of the class, and `str(exc)`, which is missing where
`__str__` raises. -/
structure Thrown where
  cls : ExcClass
  typeName : String
  text : Option String
  deriving DecidableEq

/-- Where a commit is cancelled: in the flush, or at the `COMMIT`, which PostgreSQL may have
carried out. -/
inductive CancelPoint
  | flush
  | commit (done : Bool)
  deriving DecidableEq

/-- How a handler ends. -/
inductive Ending
  | returns (result : Json)
  | raises (exc : Thrown)
  | overruns
  /-- It overruns in the commit of one more report, which has a change to write. -/
  | interrupted (pct : Int) (point : CancelPoint)
  deriving DecidableEq

/-- What a handler does in one run: a batch handler first reports its progress, in percent. -/
structure Behaviour where
  reports : List Int := []
  ending : Ending

/-! ## The session -/

inductive LogLevel
  | info | warning | error
  deriving DecidableEq

/-- A row of `job_logs`. -/
structure JobLog where
  jobId : UUID
  level : LogLevel
  message : String
  metadata : Json
  deriving DecidableEq

/-- The columns PostgreSQL takes a value into, and the exceptions of a rejected statement and
of a session that has to be rolled back. -/
structure Postgres where
  text : String → Bool
  jsonb : Json → Bool
  rejection : Thrown
  refusal : Thrown

/-- The stores, and the lease holder of the worker. -/
structure Process where
  jobs : Jobs := ∅
  jobLogs : List JobLog := []
  redis : Redis := {}
  /-- `lease_holder.job_id` -/
  holder : Option UUID := none

/-- The transaction of a session: it takes statements, its commit stopped after the flush, or
a flush has failed. -/
inductive TransactionState
  | active | prepared | deactive
  deriving DecidableEq

/-- A turn after its claim: the instance, the rows added to the session, and the session's
transaction. -/
structure Attempt extends Process where
  job : Mapped
  added : List JobLog := []
  transaction : TransactionState := .active

/-- The session takes statements. -/
def Attempt.active (st : Attempt) : Bool := st.transaction = .active

abbrev Py := EStateM Thrown Attempt

/-- A nullable column is written only if its value has changed. -/
def takes {β : Type} [DecidableEq β] (column : β → Bool) (loaded current : Option β) : Bool :=
  current = loaded || current.all column

/-- PostgreSQL takes the `UPDATE` and the `INSERT`s of the flush. The other columns of the
`UPDATE` hold the program's own values. -/
def Postgres.accepts (db : Postgres) (st : Attempt) : Bool :=
  takes db.jsonb st.job.loaded.result st.job.current.result &&
    takes db.text st.job.loaded.errorMessage st.job.current.errorMessage &&
    st.added.all fun entry => db.text entry.message && db.jsonb entry.metadata

/-- The turn after a flush that PostgreSQL has taken and the commit. -/
def Attempt.flushed (st : Attempt) : Attempt :=
  { st with
    jobs := st.jobs.flush st.job
    jobLogs := st.jobLogs ++ st.added
    job := st.job.flushed
    added := [] }

namespace Py

variable (settings : Settings) (db : Postgres)

/-- Read attributes of the instance, which a failed flush has expired. -/
def load : Py Mapped := do
  let st ← get
  if st.transaction = .deactive then throw db.refusal else return st.job

def assign (set : Job → Job) : Py Unit :=
  modify fun st => { st with job := { st.job with current := set st.job.current } }

def appendJobLog (jobId : UUID) (message : String) (level : LogLevel) (metadata : Json) :
    Py Unit :=
  modify fun st => { st with added := st.added ++ [⟨jobId, level, message, metadata⟩] }

/-- `session.commit()` -/
def commit : Py Unit := do
  let st ← get
  if !st.active then throw db.refusal
  else if db.accepts st then set st.flushed
  else
    set { st with transaction := .deactive, added := [] }
    throw db.rejection

/-- The `TimeoutError` of `wait_for`. -/
def timeoutError : Thrown := { cls := .timeoutError, typeName := "TimeoutError", text := some "" }

/-- `session.commit()` that `wait_for` cancels. -/
def cancelledCommit (point : CancelPoint) : Py Unit := do
  let st ← get
  if !st.active then throw db.refusal
  else match point with
    | .flush =>
        set { st with transaction := .deactive, added := [] }
        throw timeoutError
    | .commit done =>
        if db.accepts st then
          -- the instance holds the flushed values, whether or not the row does
          set { st.flushed with
            jobs := if done then st.flushed.jobs else st.jobs
            jobLogs := if done then st.flushed.jobLogs else st.jobLogs
            transaction := .prepared }
          throw timeoutError
        else
          set { st with transaction := .deactive, added := [] }
          throw db.rejection

/-! ## The failure path -/

/-- `_safe_error_message` -/
def safeErrorMessage (exc : Thrown) : Py String :=
  match exc.text with
  | some text => return JobQueue.safeErrorMessage ⟨exc.typeName, text⟩
  | none => throw { cls := .other, typeName := "Exception", text := none }

/-- The test of `apply_failure`; `attempt_count` is read only if the failure may be retried. -/
def retries (permanent : Bool) : Py Bool :=
  if permanent then return false
  else do
    let job ← load db
    return shouldRetry job.current.attemptCount job.current.maxAttempts

/-- The branch of `apply_failure` that schedules a retry. -/
def scheduleRetry (clock : Timestamp) (errorMessage : String) : Py Unit := do
  assign (JobQueue.scheduleRetry settings clock)
  let job ← load db
  appendJobLog job.id "retry scheduled" .warning
    (.obj [("status", .str JobStatus.pending.value),
      ("attempt_count", .int job.current.attemptCount), ("error_message", .str errorMessage),
      ("next_run_at", .str (isoformat
        (clock + backoffSeconds settings job.current.attemptCount)))])
  commit db
  let _ ← load db

/-- The branch of `apply_failure` that marks the job permanently failed. -/
def failPermanently (clock : Timestamp) (errorMessage : String) : Py Unit := do
  assign (JobQueue.failPermanently clock)
  let job ← load db
  appendJobLog job.id "job failed permanently" .error
    (.obj [("status", .str JobStatus.failed.value),
      ("attempt_count", .int job.current.attemptCount), ("error_message", .str errorMessage)])
  commit db
  let job ← load db
  modify fun st => { st with redis := st.redis.deadLetter job.id }
  let _ ← load db

def applyFailure (clock : Timestamp) (errorMessage : String) (permanent : Bool) : Py Unit := do
  assign (recordFailure errorMessage)
  let retry ← retries db permanent
  if retry then scheduleRetry settings db clock errorMessage
  else failPermanently db clock errorMessage

/-! ## The handler and its completion -/

/-- `_complete_job` -/
def completeJob (clock : Timestamp) (result : Json) : Py Unit := do
  assign (JobQueue.completeJob clock result)
  let job ← load db
  appendJobLog job.id "job completed" .info (.obj [("status", .str JobStatus.completed.value)])
  commit db

/-- `_report_progress` -/
def reportProgress (pct : Int) : Py Unit := do
  assign (JobQueue.reportProgress pct)
  commit db

/-- `_report_progress` whose commit is cancelled. -/
def cancelledReport (pct : Int) (point : CancelPoint) : Py Unit := do
  assign (JobQueue.reportProgress pct)
  cancelledCommit db point

/-- The end of a handler, which may have been given the reporter. -/
def endHandler (reporter : Bool) : Ending → Py Json
  | .returns result => return result
  | .raises exc => throw exc
  | .overruns => throw timeoutError
  | .interrupted pct point => do
      if reporter then cancelledReport db pct point
      throw timeoutError

/-- The handler under `asyncio.wait_for`. Every job type has a handler, and only that of a
batch job is given the reporter. -/
def runHandler (behaviour : Behaviour) : Py Json := do
  let job ← load db
  if job.current.jobType = .batch then forM behaviour.reports (reportProgress db)
  endHandler db (job.current.jobType = .batch) behaviour.ending

/-! ## The turn -/

/-- The times a turn reads: `now()` of the claim, and `datetime.now(UTC)` at the claim, at
the completion and at the failure. -/
structure Clocks where
  began : Timestamp
  claimed : Timestamp
  completed : Timestamp
  failed : Timestamp

/-- The `except` clauses. -/
def onException (clock : Timestamp) (exc : Thrown) : Py Unit :=
  match exc.cls with
  | .timeoutError => do
      let _ ← load db
      applyFailure settings db clock ("timed out after " ++ settings.jobTimeoutText ++ "s") false
  | .unknownJobTypeError => do
      let message ← safeErrorMessage exc
      applyFailure settings db clock message true
  | .handlerError | .other => do
      let message ← safeErrorMessage exc
      let _ ← load db
      applyFailure settings db clock message false

/-- The inner `try` statement. -/
def runJob (clocks : Clocks) (behaviour : Behaviour) : Py Unit := do
  try
    let result ← runHandler db behaviour
    completeJob db clocks.completed result
    let _ ← load db
  catch exc => onException settings db clocks.failed exc

/-- The commit of the log row that says the job has started. -/
def start (workerId : WorkerId) : Py Unit := do
  let job ← load db
  appendJobLog job.id "job started" .info
    (.obj [("status", .str job.current.status.value), ("worker_id", .str workerId),
      ("attempt_count", .int job.current.attemptCount)])
  commit db
  let _ ← load db

/-- The `finally` clause. -/
def release : Py Unit := do
  let job ← load db
  modify fun st => if st.holder = some job.id then { st with holder := none } else st

/-- The outer `try` statement. -/
def attempt (clocks : Clocks) (workerId : WorkerId) (behaviour : Behaviour) : Py Unit := do
  try
    start db workerId
    runJob settings db clocks behaviour
  finally release db

end Py

/-- The session is closed. -/
def Attempt.close : EStateM.Result Thrown Attempt Unit → EStateM.Result Thrown Process Bool
  | .ok _ st => .ok true st.toProcess
  | .error exc st => .error exc st.toProcess

/-- `process_one`: whether an id was popped. -/
def processOne (settings : Settings) (db : Postgres) (clocks : Py.Clocks) (workerId : WorkerId)
    (behaviour : Behaviour) (p : Process) : EStateM.Result Thrown Process Bool :=
  match p.redis.dequeue with
  | (redis, none) => .ok false { p with redis := redis }
  | (redis, some jobId) =>
      let claimed := claimJob p.jobs clocks.began clocks.claimed jobId workerId settings.workerLease
      match claimed.2 with
      | none => .ok true { p with redis := redis }
      | some job =>
          let st : Attempt := { p with
            jobs := claimed.1, redis := redis, holder := some jobId, job := Mapped.load jobId job }
          Attempt.close (Py.attempt settings db clocks workerId behaviour st)

/-- What one turn of the loop meets: the times it reads, and its handler. -/
structure ExecutorTurn where
  clocks : Py.Clocks
  behaviour : Behaviour

/-- `run_executor_loop`, as the turns it takes before it sees the stop event. Nothing in the
loop catches an exception. -/
def runExecutorLoop (settings : Settings) (db : Postgres) (workerId : WorkerId) :
    List ExecutorTurn → Process → EStateM.Result Thrown Process Unit
  | [], p => .ok () p
  | turn :: rest, p =>
      match processOne settings db turn.clocks workerId turn.behaviour p with
      | .ok _ p' => runExecutorLoop settings db workerId rest p'
      | .error exc p' => .error exc p'

/-! ## What a session refuses that takes no statements -/

namespace Py

variable {settings : Settings} {db : Postgres} {st : Attempt}

theorem get_bind {α : Type} (f : Attempt → Py α) : (get >>= f) st = f st st := rfl

theorem assign_bind {α : Type} (set : Job → Job) (f : Unit → Py α) :
    (assign set >>= f) st =
      f () { st with job := { st.job with current := set st.job.current } } := rfl

theorem appendJobLog_bind {α : Type} (id : UUID) (message : String) (level : LogLevel)
    (metadata : Json) (f : Unit → Py α) : (appendJobLog id message level metadata >>= f) st =
      f () { st with added := st.added ++ [⟨id, level, message, metadata⟩] } := rfl

/-- The attributes can be read, or the read is refused. -/
theorem load_or (db : Postgres) (st : Attempt) :
    load db st = .ok st.job st ∨ (st.active = false ∧ load db st = .error db.refusal st) := by
  unfold load
  rw [get_bind]
  by_cases hdeactive : st.transaction = .deactive
  · rw [if_pos hdeactive]
    exact Or.inr ⟨by simp [Attempt.active, hdeactive], rfl⟩
  · rw [if_neg hdeactive]
    exact Or.inl rfl

theorem load_ok (h : st.active = true) : load db st = .ok st.job st := by
  rcases load_or db st with hok | ⟨hinactive, _⟩
  · exact hok
  · rw [h] at hinactive
    cases hinactive

theorem load_bind {α : Type} (f : Mapped → Py α) (h : st.active = true) :
    (load db >>= f) st = f st.job st := EStateM.bind_of_ok (load_ok h) f

/-- A read and what raises after it. -/
theorem load_then_raises {α : Type} {f : Mapped → Py α}
    (h : ∃ exc st', f st.job st = .error exc st') :
    ∃ exc st', (load db >>= f) st = .error exc st' := by
  rcases load_or db st with hok | ⟨_, hrefused⟩
  · rw [EStateM.bind_of_ok hok]
    exact h
  · exact ⟨db.refusal, st, EStateM.bind_of_error hrefused f⟩

theorem commit_refused (h : st.active = false) : commit db st = .error db.refusal st := by
  unfold commit
  rw [get_bind, if_pos (by simp [h])]
  rfl

theorem scheduleRetry_refused (settings : Settings) (clock : Timestamp) (message : String)
    (h : st.active = false) :
    ∃ exc st', scheduleRetry settings db clock message st = .error exc st' := by
  unfold scheduleRetry
  rw [assign_bind]
  apply load_then_raises
  rw [appendJobLog_bind]
  refine ⟨db.refusal, _, EStateM.bind_of_error (commit_refused ?_) _⟩
  exact h

theorem failPermanently_refused (clock : Timestamp) (message : String) (h : st.active = false) :
    ∃ exc st', failPermanently db clock message st = .error exc st' := by
  unfold failPermanently
  rw [assign_bind]
  apply load_then_raises
  rw [appendJobLog_bind]
  refine ⟨db.refusal, _, EStateM.bind_of_error (commit_refused ?_) _⟩
  exact h

/-- The test whether to retry reads the instance at most. -/
theorem retries_or (db : Postgres) (permanent : Bool) (st : Attempt) :
    retries db permanent st = .ok (JobQueue.retries permanent st.job.current) st ∨
      (st.active = false ∧ retries db permanent st = .error db.refusal st) := by
  unfold retries JobQueue.retries
  cases permanent with
  | true => exact Or.inl rfl
  | false =>
    rw [if_neg (by simp)]
    rcases load_or db st with hok | ⟨hinactive, hrefused⟩
    · rw [EStateM.bind_of_ok hok]
      exact Or.inl rfl
    · exact Or.inr ⟨hinactive, EStateM.bind_of_error hrefused _⟩

/-- On a session that takes no statements the failure path raises. -/
theorem applyFailure_refused (settings : Settings) (clock : Timestamp) (message : String)
    (permanent : Bool) (h : st.active = false) :
    ∃ exc st', applyFailure settings db clock message permanent st = .error exc st' := by
  unfold applyFailure
  rw [assign_bind]
  rcases retries_or db permanent
    { st with job := { st.job with current := recordFailure message st.job.current } } with
    hok | ⟨_, hrefused⟩
  · rw [EStateM.bind_of_ok hok]
    split
    · exact scheduleRetry_refused settings clock message h
    · exact failPermanently_refused clock message h
  · exact ⟨db.refusal, _, EStateM.bind_of_error hrefused _⟩

/-- A timeout is recorded with the message of the program. -/
theorem onException_timeout {exc : Thrown} (clock : Timestamp) (h : exc.cls = .timeoutError) :
    onException settings db clock exc st = (do
      let _ ← load db
      applyFailure settings db clock ("timed out after " ++ settings.jobTimeoutText ++ "s")
        false) st := by
  unfold onException
  rw [h]

/-- Any other exception is recorded with its text. -/
theorem onException_message {exc : Thrown} {text : String} (clock : Timestamp)
    (h : exc.cls ≠ .timeoutError) (htext : exc.text = some text) (hactive : st.active = true) :
    onException settings db clock exc st = applyFailure settings db clock
      (JobQueue.safeErrorMessage ⟨exc.typeName, text⟩) (exc.cls = .unknownJobTypeError) st := by
  unfold onException safeErrorMessage
  rw [htext]
  cases hcls : exc.cls with
  | timeoutError => exact absurd hcls h
  | unknownJobTypeError => rfl
  | handlerError | other => exact load_bind _ hactive

/-- An exception whose `__str__` raises makes `_safe_error_message` raise. -/
theorem onException_unprintable {exc : Thrown} (clock : Timestamp) (h : exc.cls ≠ .timeoutError)
    (htext : exc.text = none) :
    ∃ exc' st', onException settings db clock exc st = .error exc' st' := by
  unfold onException safeErrorMessage
  rw [htext]
  cases hcls : exc.cls with
  | timeoutError => exact absurd hcls h
  | unknownJobTypeError | handlerError | other => exact ⟨_, st, rfl⟩

theorem onException_refused (settings : Settings) (clock : Timestamp) (exc : Thrown)
    (h : st.active = false) :
    ∃ exc' st', onException settings db clock exc st = .error exc' st' := by
  by_cases hcls : exc.cls = .timeoutError
  · rw [onException_timeout clock hcls]
    exact load_then_raises (applyFailure_refused settings clock _ false h)
  · cases htext : exc.text with
    | none => exact onException_unprintable clock hcls htext
    | some text =>
      unfold onException safeErrorMessage
      rw [htext]
      cases hcls' : exc.cls with
      | timeoutError => exact absurd hcls' hcls
      | unknownJobTypeError => exact applyFailure_refused settings clock _ true h
      | handlerError | other =>
        exact load_then_raises (applyFailure_refused settings clock _ false h)

end Py

end JobQueue
