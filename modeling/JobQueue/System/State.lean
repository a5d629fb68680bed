import JobQueue.Library.Transition
import JobQueue.Model.Worker
import JobQueue.Model.Service
import JobQueue.Model.Maintenance

/-!
# The system at the granularity of database statements

PostgreSQL and Redis are shared by any number of workers (an executor task and a heartbeat
task each), any number of API calls and the maintenance process. A step is one statement or
command of one party, together with the code up to its next `await`. Each SQL statement is
atomic on the row it touches.

Where a party reads `datetime.now(UTC)` the action carries the value, so that the clocks of
the processes are arbitrary. Where a conditional `UPDATE` compares with `now()`, the action
carries the start `began` of its transaction, at or before the statement: the transaction
may be older than the statement, or the statement may have waited for a row lock.
-/

namespace JobQueue

open Relational

/-! ## Shared stores -/

structure Store where
  /-- The committed rows of `jobs`. -/
  jobs : Jobs := ∅
  /-- Rows inserted by transactions that are still open. -/
  staged : List (UUID × Job) := []
  redis : Redis := {}
  now : Timestamp := 0

/-! ## Workers -/

/-- Where `process_one` stands. `claimed` is before the executor task has resumed after the
claim's commit; `finalising` is between the assignments of `_complete_job` or
`apply_failure` and their commit. -/
inductive Executor
  | idle
  | popped (jobId : UUID)
  | claimed (job : Mapped)
  | executing (job : Mapped)
  | finalising (job : Mapped)
  | deadLettering (jobId : UUID)
  | crashed
  deriving DecidableEq

/-- The attempt between a successful claim and its finalising commit. -/
def Executor.inHand : Executor → Option Mapped
  | .claimed m | .executing m | .finalising m => some m
  | _ => none

/-- Where `run_heartbeat_loop` stands: it has read the job id of the lease holder, or it has
the answer of `renew_job_lease`. -/
inductive Heartbeat
  | resting
  | renewing (jobId : UUID)
  | answered (jobId : UUID) (renewed : Bool)

structure Worker where
  executor : Executor := .idle
  /-- `LeaseHolder.job_id` -/
  holder : Option UUID := none
  heartbeat : Heartbeat := .resting

/-- The end of `process_one`: the `finally` clause clears the holder. -/
def Worker.release (p : Worker) (jobId : UUID) : Worker :=
  { p with executor := .idle, holder := if p.holder = some jobId then none else p.holder }

inductive WorkerAction
  | dequeue
  | claim (began clock : Timestamp)
  | start
  | report (pct : Int)
  | finish (result : Json) (clock : Timestamp)
  | fail (raised : Raised) (clock : Timestamp)
  | commit
  | deadLetter
  | beat
  | renew (clock : Timestamp)
  | settle
  | crash

def workerStep (settings : Settings) (st : Store) (w : WorkerId) (p : Worker) :
    WorkerAction → Option (Store × Worker)
  | .dequeue =>
      match p.executor with
      | .idle =>
          match st.redis.dequeue.2 with
          | some jobId =>
              some ({ st with redis := st.redis.dequeue.1 }, { p with executor := .popped jobId })
          | none => some (st, p)
      | _ => none
  | .claim began clock =>
      match p.executor with
      | .popped jobId =>
          if began ≤ st.now then
            let claimed := claimJob st.jobs began clock jobId w settings.workerLease
            match claimed.2 with
            | some job =>
                some ({ st with jobs := claimed.1 },
                  { p with executor := .claimed (Mapped.load jobId job) })
            | none => some (st, { p with executor := .idle })
          else none
      | _ => none
  -- the executor task resumes: it takes the lease holder and commits the log row
  | .start =>
      match p.executor with
      | .claimed m => some (st, { p with executor := .executing m, holder := some m.id })
      | _ => none
  -- only a batch handler is given the reporter
  | .report pct =>
      match p.executor with
      | .executing m =>
          if m.current.jobType = .batch then
            let m := { m with current := reportProgress pct m.current }
            some ({ st with jobs := st.jobs.flush m }, { p with executor := .executing m.flushed })
          else none
      | _ => none
  | .finish result clock =>
      match p.executor with
      | .executing m =>
          some (st, { p with
            executor := .finalising { m with current := completeJob clock result m.current } })
      | _ => none
  | .fail raised clock =>
      match p.executor with
      | .executing m =>
          some (st, { p with
            executor := .finalising { m with current := raised.apply settings clock m.current } })
      | _ => none
  | .commit =>
      match p.executor with
      | .finalising m =>
          some ({ st with jobs := st.jobs.flush m },
            if m.current.status = .failed then { p with executor := .deadLettering m.id }
            else p.release m.id)
      | _ => none
  | .deadLetter =>
      match p.executor with
      | .deadLettering jobId =>
          some ({ st with redis := st.redis.deadLetter jobId }, p.release jobId)
      | _ => none
  | .beat =>
      match p.heartbeat, p.holder with
      | .resting, some jobId => some (st, { p with heartbeat := .renewing jobId })
      | .resting, none => some (st, p)
      | _, _ => none
  | .renew clock =>
      match p.heartbeat with
      | .renewing jobId =>
          let renewed := renewJobLease st.jobs clock jobId w settings.workerLease
          some ({ st with jobs := renewed.1 }, { p with heartbeat := .answered jobId renewed.2 })
      | _ => none
  -- the heartbeat task resumes: a lost lease clears the holder if it still names the job
  | .settle =>
      match p.heartbeat with
      | .answered jobId renewed =>
          some (st, { p with
            heartbeat := .resting
            holder := if !renewed && p.holder = some jobId then none else p.holder })
      | _ => none
  | .crash => some (st, { executor := .crashed })

/-! ## API calls -/

/-- What a call returns. -/
inductive Returned
  | created (jobId : UUID)
  | existing (jobId : UUID)
  | cancelled (jobId : UUID)
  | retried (jobId : UUID)
  deriving DecidableEq

/-- Where a call of `submit_job`, `cancel_job` or `manual_retry` stands. -/
inductive Call
  | unused
  /-- The lookup of `submit_job` found nothing; `began` is when its transaction started. -/
  | inserting (data : JobCreate) (key : Option String) (began : Timestamp)
  /-- The flush has sent the `INSERT`. -/
  | inserted (jobId : UUID) (job : Job)
  /-- Committed; the command that dispatches the job is outstanding. -/
  | pushing (jobId : UUID) (job : Job)
  | cancelling (job : Mapped)
  /-- Committed; both `ZREM`s are outstanding. -/
  | removing (jobId : UUID)
  | removingScheduled (jobId : UUID)
  | retrying (job : Mapped)
  /-- Committed; the `LREM` is outstanding. -/
  | clearing (jobId : UUID)
  | returned (value : Returned)
  | raised (error : ApiError)
  | dropped
  deriving DecidableEq

inductive CallAction
  | submit (data : JobCreate) (idempotencyKey : Option String)
  | insert (jobId : UUID)
  | cancel (jobId : UUID)
  | manualRetry (jobId : UUID) (clock : Timestamp)
  | commit
  | command
  | fault
  | drop

/-- Another open transaction holds the primary key or the idempotency key, so that an
`INSERT` waits for it. -/
def Store.blocked (st : Store) (jobId : UUID) (key : Option String) : Bool :=
  st.staged.any fun e => e.1 = jobId ∨ (key.isSome ∧ e.2.idempotencyKey = key)

def Store.unstage (st : Store) (jobId : UUID) : Store :=
  { st with staged := st.staged.filter fun e => e.1 ≠ jobId }

/-- `now()` at the `INSERT`: without a key there was no lookup, and the transaction starts
with the `INSERT`. -/
def Store.insertTime (st : Store) (key : Option String) (began : Timestamp) : Timestamp :=
  if key.isSome then began else st.now

/-- Key lookup of `submit_job`. -/
def submitLookup (st : Store) (data : JobCreate) (idempotencyKey : Option String) : Call :=
  match normalizeIdempotencyKey idempotencyKey with
  | .error message => .raised (.invalidKey message)
  | .ok none => .inserting data none st.now
  | .ok (some key) =>
      match findJobByIdempotencyKey st.jobs key with
      | some jobId => .returned (.existing jobId)
      | none => .inserting data (some key) st.now

/-- Commit of `submit_job`. PostgreSQL has checked every constraint at the `INSERT`; the
branch for an `IntegrityError` is there as the code has it. -/
def submitCommit (st : Store) (jobId : UUID) (job : Job) : Store × Call :=
  if violates st.jobs jobId job then
    (st.unstage jobId,
      match job.idempotencyKey.bind (findJobByIdempotencyKey st.jobs) with
      | some existing => .returned (.existing existing)
      | none => .raised .integrity)
  else ({ st.unstage jobId with jobs := st.jobs.insert jobId job }, .pushing jobId job)

/-- Redis command of `submit_job`. -/
def dispatch (q : Redis) (jobId : UUID) (job : Job) : Redis :=
  match job.scheduledAt with
  | some runAt => q.schedule jobId runAt
  | none => (q.enqueue jobId (priorityScore job.priority job.createdAt)).1

/-- `SELECT` and check of `cancel_job`. -/
def cancelSelect (jobs : Jobs) (jobId : UUID) : Call :=
  match jobs.lookup jobId with
  | none => .raised (notFoundError jobId)
  | some job =>
      if job.cancellable then .cancelling { Mapped.load jobId job with current := cancelJob job }
      else .raised (cancelConflict job)

/-- `SELECT` and check of `manual_retry`. -/
def retrySelect (jobs : Jobs) (jobId : UUID) (clock : Timestamp) : Call :=
  match jobs.lookup jobId with
  | none => .raised (notFoundError jobId)
  | some job =>
      if job.retryable then
        .retrying { Mapped.load jobId job with current := manualRetry clock job }
      else .raised (retryConflict job)

def callStep (settings : Settings) (st : Store) (call : Call) :
    CallAction → Option (Store × Call)
  | .submit data idempotencyKey =>
      match call with
      | .unused => some (st, submitLookup st data idempotencyKey)
      | _ => none
  | .insert jobId =>
      match call with
      | .inserting data key began =>
          let job := newJob settings data key (st.insertTime key began)
          if st.blocked jobId key then none
          else if violates st.jobs jobId job then some (st, .raised .integrity)
          else some ({ st with staged := (jobId, job) :: st.staged }, .inserted jobId job)
      | _ => none
  | .cancel jobId =>
      match call with
      | .unused => some (st, cancelSelect st.jobs jobId)
      | _ => none
  | .manualRetry jobId clock =>
      match call with
      | .unused => some (st, retrySelect st.jobs jobId clock)
      | _ => none
  | .commit =>
      match call with
      | .inserted jobId job => some (submitCommit st jobId job)
      | .cancelling m => some ({ st with jobs := st.jobs.flush m }, .removing m.id)
      | .retrying m => some ({ st with jobs := st.jobs.flush m }, .clearing m.id)
      | _ => none
  | .command =>
      match call with
      | .pushing jobId job =>
          some ({ st with redis := dispatch st.redis jobId job }, .returned (.created jobId))
      | .removing jobId =>
          some ({ st with redis := st.redis.removePending jobId }, .removingScheduled jobId)
      | .removingScheduled jobId =>
          some ({ st with redis := st.redis.removeScheduled jobId }, .returned (.cancelled jobId))
      | .clearing jobId =>
          some ({ st with redis := st.redis.removeDeadLetter jobId }, .returned (.retried jobId))
      | _ => none
  -- the outstanding Redis command raises
  | .fault =>
      match call with
      | .pushing _ _ | .removing _ | .removingScheduled _ | .clearing _ => some (st, .raised .redis)
      | _ => none
  -- the API process dies; an open transaction is rolled back
  | .drop =>
      match call with
      | .inserted jobId _ => some (st.unstage jobId, .dropped)
      | _ => some (st, .dropped)

/-! ## Maintenance -/

/-- Where a cycle of the scheduler stands: it has read Redis, it goes through its
candidates, or it has a command to send for the candidate it has just looked at. -/
inductive Scheduler
  | idle
  | scanning (redisIds : List UUID) (moment : Timestamp) (limit : Nat)
  | promoting (candidates : List UUID)
  | dropping (jobId : UUID) (rest : List UUID)
  | removing (jobId : UUID) (score : Int) (rest : List UUID)
  | enqueuing (jobId : UUID) (score : Int) (rest : List UUID)

structure Maintenance where
  /-- The batch of the feeder still to be enqueued. -/
  feeder : List (UUID × Int) := []
  scheduler : Scheduler := .idle
  /-- The expired ids of the reaper still to be updated. -/
  reaper : List UUID := []

inductive MaintenanceAction
  | feederSelect (limit : Nat) (order : List UUID)
  | feederPush
  | schedulerRead (clock : Timestamp) (limit : Nat)
  | schedulerSelect (order : List UUID)
  | schedulerUpdate (began : Timestamp)
  | schedulerCommand
  | reaperSelect (limit : Nat) (order : List UUID)
  | reaperUpdate (began : Timestamp)
  | cleanup (clock : Timestamp)
  | restart

def maintenanceStep (st : Store) (p : Maintenance) :
    MaintenanceAction → Option (Store × Maintenance)
  | .feederSelect limit order =>
      if p.feeder = [] ∧ Table.Sorts st.jobs (Job.ready st.now) Job.feedsBefore order then
        some (st, { p with feeder := feederBatch st.jobs (order.take limit) })
      else none
  | .feederPush =>
      match p.feeder with
      | (jobId, score) :: rest =>
          some ({ st with redis := (st.redis.enqueue jobId score true).1 },
            { p with feeder := rest })
      | [] => none
  | .schedulerRead clock limit =>
      match p.scheduler with
      | .idle =>
          some (st, { p with
            scheduler := .scanning (st.redis.dueScheduled (timestamp clock) limit) clock limit })
      | _ => none
  | .schedulerSelect order =>
      match p.scheduler with
      | .scanning redisIds moment limit =>
          if Table.Sorts st.jobs (Job.dueAt moment) Job.scheduledBefore order then
            some (st, { p with scheduler := .promoting (candidates redisIds (order.take limit)) })
          else none
      | _ => none
  | .schedulerUpdate began =>
      match p.scheduler with
      | .promoting [] => some (st, { p with scheduler := .idle })
      | .promoting (jobId :: rest) =>
          if began ≤ st.now then
            let promoted := promoteScheduled st.jobs began jobId
            some ({ st with jobs := promoted.1 }, { p with
              scheduler := match promoted.2 with
                | some job => .removing jobId (priorityScore job.priority job.createdAt) rest
                | none => .dropping jobId rest })
          else none
      | _ => none
  | .schedulerCommand =>
      match p.scheduler with
      | .dropping jobId rest =>
          some ({ st with redis := st.redis.removeScheduled jobId },
            { p with scheduler := .promoting rest })
      | .removing jobId score rest =>
          some ({ st with redis := st.redis.removeScheduled jobId },
            { p with scheduler := .enqueuing jobId score rest })
      | .enqueuing jobId score rest =>
          some ({ st with redis := (st.redis.enqueue jobId score).1 },
            { p with scheduler := .promoting rest })
      | _ => none
  | .reaperSelect limit order =>
      if p.reaper = [] ∧ Table.Sorts st.jobs (Job.expired st.now) Job.leasedBefore order then
        some (st, { p with reaper := order.take limit })
      else none
  | .reaperUpdate began =>
      match p.reaper with
      | jobId :: rest =>
          if began ≤ st.now then
            some ({ st with jobs := (reapOne st.jobs began jobId).1 }, { p with reaper := rest })
          else none
      | [] => none
  | .cleanup clock =>
      some ({ st with jobs := cleanupExpiredIdempotencyKeys st.jobs clock }, p)
  | .restart => some (st, {})

/-! ## The whole system -/

structure State where
  store : Store := {}
  workers : WorkerId → Worker := fun _ => {}
  calls : Nat → Call := fun _ => .unused
  maintenance : Maintenance := {}

/-- The committed row of a job. -/
def State.row (s : State) (j : UUID) : Option Job := s.store.jobs.lookup j

inductive Action
  | worker (w : WorkerId) (a : WorkerAction)
  | api (c : Nat) (a : CallAction)
  | maintenance (a : MaintenanceAction)
  /-- The database clock moves on. -/
  | tick (t : Timestamp)
  /-- Redis loses entries, or gains stale and repeated ones. -/
  | tamper (redis : Redis)

def step (settings : Settings) (s : State) : Action → Option State
  | .worker w a =>
      (workerStep settings s.store w (s.workers w) a).map fun r =>
        { s with store := r.1, workers := Function.update s.workers w r.2 }
  | .api c a =>
      (callStep settings s.store (s.calls c) a).map fun r =>
        { s with store := r.1, calls := Function.update s.calls c r.2 }
  | .maintenance a =>
      (maintenanceStep s.store s.maintenance a).map fun r =>
        { s with store := r.1, maintenance := r.2 }
  | .tick t => if s.store.now ≤ t then some { s with store := { s.store with now := t } } else none
  | .tamper redis => some { s with store := { s.store with redis := redis } }

/-- No process is in the middle of anything: arbitrary tables, nothing in flight. -/
structure State.Quiet (s : State) : Prop where
  workers : ∀ w, s.workers w = {}
  calls : ∀ c, s.calls c = .unused
  maintenance : s.maintenance = {}
  staged : s.store.staged = []

/-- The system before the first submission. -/
def State.initial (now : Timestamp) : State := { store := { now := now } }

theorem State.quiet_initial (now : Timestamp) : (State.initial now).Quiet :=
  ⟨fun _ => rfl, fun _ => rfl, rfl, rfl⟩

end JobQueue
