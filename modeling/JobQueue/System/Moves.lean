import JobQueue.System.State

/-!
# The moves of each party

What the step functions of `System/State.lean` do, case by case: a step of a worker, of a
call or of the maintenance process is one of the moves listed here, each with the phase and
the guards it needs, the stores it leaves and the phase it leads to. The proofs about runs
split on moves, and no other module looks into the branches of the step functions.
-/

namespace JobQueue

open Relational

variable {settings : Settings} {s s' : State} {a : Action}

/-! ## Workers -/

/-- A step of worker `w`, from the stores `st` and the party `p` to `st'` and `p'`. -/
inductive WorkerMove (settings : Settings) (w : WorkerId) (st st' : Store) (p p' : Worker) :
    WorkerAction → Prop
  | pop {jobId} (hidle : p.executor = .idle) (hpop : st.redis.dequeue.2 = some jobId)
      (hstore : st' = { st with redis := st.redis.dequeue.1 })
      (hworker : p' = { p with executor := .popped jobId }) :
      WorkerMove settings w st st' p p' .dequeue
  | empty (hidle : p.executor = .idle) (hempty : st.redis.dequeue.2 = none) (hstore : st' = st)
      (hworker : p' = p) : WorkerMove settings w st st' p p' .dequeue
  | claim {began clock jobId row} (hpopped : p.executor = .popped jobId) (hbegan : began ≤ st.now)
      (hrow : st.jobs.lookup jobId = some row) (hready : row.ready began = true)
      (hstore : st' = { st with
        jobs := st.jobs.insert jobId (row.claim began clock settings.workerLease w) })
      (hworker : p' = { p with
        executor := .claimed
          (Mapped.load jobId (row.claim began clock settings.workerLease w)) }) :
      WorkerMove settings w st st' p p' (.claim began clock)
  | skip {began clock jobId} (hpopped : p.executor = .popped jobId) (hbegan : began ≤ st.now)
      (hnot : ∀ row, st.jobs.lookup jobId = some row → row.ready began = false)
      (hstore : st' = st) (hworker : p' = { p with executor := .idle }) :
      WorkerMove settings w st st' p p' (.claim began clock)
  | start {m} (hclaimed : p.executor = .claimed m) (hstore : st' = st)
      (hworker : p' = { p with executor := .executing m, holder := some m.id }) :
      WorkerMove settings w st st' p p' .start
  | report {pct m} (hexecuting : p.executor = .executing m) (hbatch : m.current.jobType = .batch)
      (hstore : st' = { st with
        jobs := st.jobs.flush { m with current := reportProgress pct m.current } })
      (hworker : p' = { p with
        executor := .executing { m with current := reportProgress pct m.current }.flushed }) :
      WorkerMove settings w st st' p p' (.report pct)
  | finish {result clock m} (hexecuting : p.executor = .executing m) (hstore : st' = st)
      (hworker : p' = { p with
        executor := .finalising { m with current := completeJob clock result m.current } }) :
      WorkerMove settings w st st' p p' (.finish result clock)
  | fail {raised clock m} (hexecuting : p.executor = .executing m) (hstore : st' = st)
      (hworker : p' = { p with
        executor := .finalising { m with current := raised.apply settings clock m.current } }) :
      WorkerMove settings w st st' p p' (.fail raised clock)
  | commit {m} (hfinalising : p.executor = .finalising m) (hstatus : m.current.status ≠ .failed)
      (hstore : st' = { st with jobs := st.jobs.flush m }) (hworker : p' = p.release m.id) :
      WorkerMove settings w st st' p p' .commit
  | commitFailed {m} (hfinalising : p.executor = .finalising m)
      (hstatus : m.current.status = .failed) (hstore : st' = { st with jobs := st.jobs.flush m })
      (hworker : p' = { p with executor := .deadLettering m.id }) :
      WorkerMove settings w st st' p p' .commit
  | deadLetter {jobId} (hdeadLettering : p.executor = .deadLettering jobId)
      (hstore : st' = { st with redis := st.redis.deadLetter jobId })
      (hworker : p' = p.release jobId) : WorkerMove settings w st st' p p' .deadLetter
  | beat {jobId} (hresting : p.heartbeat = .resting) (hholder : p.holder = some jobId)
      (hstore : st' = st) (hworker : p' = { p with heartbeat := .renewing jobId }) :
      WorkerMove settings w st st' p p' .beat
  | rest (hresting : p.heartbeat = .resting) (hholder : p.holder = none) (hstore : st' = st)
      (hworker : p' = p) : WorkerMove settings w st st' p p' .beat
  | renew {clock jobId} (hrenewing : p.heartbeat = .renewing jobId)
      (hstore : st' = { st with
        jobs := (renewJobLease st.jobs clock jobId w settings.workerLease).1 })
      (hworker : p' = { p with
        heartbeat := .answered jobId
          (renewJobLease st.jobs clock jobId w settings.workerLease).2 }) :
      WorkerMove settings w st st' p p' (.renew clock)
  | settle {jobId renewed} (hanswered : p.heartbeat = .answered jobId renewed)
      (hstore : st' = st) (hworker : p' = { p with
        heartbeat := .resting
        holder := if !renewed && p.holder = some jobId then none else p.holder }) :
      WorkerMove settings w st st' p p' .settle
  | crash (hstore : st' = st) (hworker : p' = { executor := .crashed }) :
      WorkerMove settings w st st' p p' .crash

theorem workerMove_of_step {w : WorkerId} {st st' : Store} {p p' : Worker} {b : WorkerAction}
    (h : workerStep settings st w p b = some (st', p')) : WorkerMove settings w st st' p p' b := by
  cases b with
  | dequeue =>
    simp only [workerStep] at h
    split at h
    · rename_i hidle
      split at h
      · rename_i jobId hpop
        cases h
        exact .pop hidle hpop rfl rfl
      · rename_i hempty
        cases h
        exact .empty hidle hempty rfl rfl
    · cases h
  | claim began clock =>
    simp only [workerStep] at h
    split at h
    · rename_i jobId hpopped
      split at h
      · rename_i hbegan
        rcases Table.updateWhere_cases st.jobs jobId (Job.ready began)
          (Job.claim began clock settings.workerLease w) with ⟨row, hrow, hready, heq⟩ | ⟨hnot, heq⟩
        · rw [claimJob, heq] at h
          cases h
          exact .claim hpopped hbegan hrow hready rfl rfl
        · rw [claimJob, heq] at h
          cases h
          exact .skip hpopped hbegan hnot rfl rfl
      · cases h
    · cases h
  | start =>
    simp only [workerStep] at h
    split at h
    · rename_i m hclaimed
      cases h
      exact .start hclaimed rfl rfl
    · cases h
  | report pct =>
    simp only [workerStep] at h
    split at h
    · rename_i m hexecuting
      split at h
      · rename_i hbatch
        cases h
        exact .report hexecuting hbatch rfl rfl
      · cases h
    · cases h
  | finish result clock =>
    simp only [workerStep] at h
    split at h
    · rename_i m hexecuting
      cases h
      exact .finish hexecuting rfl rfl
    · cases h
  | fail raised clock =>
    simp only [workerStep] at h
    split at h
    · rename_i m hexecuting
      cases h
      exact .fail hexecuting rfl rfl
    · cases h
  | commit =>
    simp only [workerStep] at h
    split at h
    · rename_i m hfinalising
      by_cases hstatus : m.current.status = .failed
      · rw [if_pos hstatus] at h
        cases h
        exact .commitFailed hfinalising hstatus rfl rfl
      · rw [if_neg hstatus] at h
        cases h
        exact .commit hfinalising hstatus rfl rfl
    · cases h
  | deadLetter =>
    simp only [workerStep] at h
    split at h
    · rename_i jobId hdeadLettering
      cases h
      exact .deadLetter hdeadLettering rfl rfl
    · cases h
  | beat =>
    simp only [workerStep] at h
    split at h
    · rename_i jobId hresting hholder
      cases h
      exact .beat hresting hholder rfl rfl
    · rename_i hresting hholder
      cases h
      exact .rest hresting hholder rfl rfl
    · cases h
  | renew clock =>
    simp only [workerStep] at h
    split at h
    · rename_i jobId hrenewing
      cases h
      exact .renew hrenewing rfl rfl
    · cases h
  | settle =>
    simp only [workerStep] at h
    split at h
    · rename_i jobId renewed hanswered
      cases h
      exact .settle hanswered rfl rfl
    · cases h
  | crash =>
    cases h
    exact .crash rfl rfl

theorem WorkerMove.now_eq {w : WorkerId} {st st' : Store} {p p' : Worker} {b : WorkerAction}
    (h : WorkerMove settings w st st' p p' b) : st'.now = st.now := by
  cases h
  all_goals
    rename_i hstore _
    subst hstore
    rfl

theorem WorkerMove.staged_eq {w : WorkerId} {st st' : Store} {p p' : Worker} {b : WorkerAction}
    (h : WorkerMove settings w st st' p p' b) : st'.staged = st.staged := by
  cases h
  all_goals
    rename_i hstore _
    subst hstore
    rfl

/-! ## API calls -/

/-- What a call with commands outstanding returns when they are done. -/
def Call.outstanding : Call → Option Returned
  | .pushing jobId _ => some (.created jobId)
  | .removing jobId | .removingScheduled jobId => some (.cancelled jobId)
  | .clearing jobId => some (.retried jobId)
  | _ => none

/-- A step of a call, from the stores `st` and the call `p` to `st'` and `p'`. -/
inductive CallMove (settings : Settings) (st st' : Store) (p p' : Call) : CallAction → Prop
  | submitInvalid {data key message} (hunused : p = .unused)
      (hnormal : normalizeIdempotencyKey key = .error message) (hstore : st' = st)
      (hcall : p' = .raised (.invalidKey message)) :
      CallMove settings st st' p p' (.submit data key)
  | submitExisting {data key normal jobId} (hunused : p = .unused)
      (hnormal : normalizeIdempotencyKey key = .ok (some normal))
      (hfound : findJobByIdempotencyKey st.jobs normal = some jobId) (hstore : st' = st)
      (hcall : p' = .returned (.existing jobId)) :
      CallMove settings st st' p p' (.submit data key)
  | submit {data key normal} (hunused : p = .unused)
      (hnormal : normalizeIdempotencyKey key = .ok normal)
      (hnew : ∀ k, normal = some k → findJobByIdempotencyKey st.jobs k = none) (hstore : st' = st)
      (hcall : p' = .inserting data normal st.now) :
      CallMove settings st st' p p' (.submit data key)
  | insertRefused {jobId data key began} (hinserting : p = .inserting data key began)
      (hblocked : st.blocked jobId key = false)
      (hviolates : violates st.jobs jobId
        (newJob settings data key (st.insertTime key began)) = true)
      (hstore : st' = st) (hcall : p' = .raised .integrity) :
      CallMove settings st st' p p' (.insert jobId)
  | insert {jobId data key began} (hinserting : p = .inserting data key began)
      (hblocked : st.blocked jobId key = false)
      (hok : violates st.jobs jobId (newJob settings data key (st.insertTime key began)) = false)
      (hstore : st' = { st with
        staged := (jobId, newJob settings data key (st.insertTime key began)) :: st.staged })
      (hcall : p' = .inserted jobId (newJob settings data key (st.insertTime key began))) :
      CallMove settings st st' p p' (.insert jobId)
  | cancelMissing {jobId} (hunused : p = .unused) (hmissing : st.jobs.lookup jobId = none)
      (hstore : st' = st) (hcall : p' = .raised (notFoundError jobId)) :
      CallMove settings st st' p p' (.cancel jobId)
  | cancelRefused {jobId row} (hunused : p = .unused) (hrow : st.jobs.lookup jobId = some row)
      (hconflict : row.cancellable = false) (hstore : st' = st)
      (hcall : p' = .raised (cancelConflict row)) : CallMove settings st st' p p' (.cancel jobId)
  | cancel {jobId row} (hunused : p = .unused) (hrow : st.jobs.lookup jobId = some row)
      (hcancellable : row.cancellable = true) (hstore : st' = st)
      (hcall : p' = .cancelling { Mapped.load jobId row with current := cancelJob row }) :
      CallMove settings st st' p p' (.cancel jobId)
  | retryMissing {jobId clock} (hunused : p = .unused) (hmissing : st.jobs.lookup jobId = none)
      (hstore : st' = st) (hcall : p' = .raised (notFoundError jobId)) :
      CallMove settings st st' p p' (.manualRetry jobId clock)
  | retryRefused {jobId clock row} (hunused : p = .unused)
      (hrow : st.jobs.lookup jobId = some row) (hconflict : row.retryable = false)
      (hstore : st' = st) (hcall : p' = .raised (retryConflict row)) :
      CallMove settings st st' p p' (.manualRetry jobId clock)
  | manualRetry {jobId clock row} (hunused : p = .unused)
      (hrow : st.jobs.lookup jobId = some row) (hretryable : row.retryable = true)
      (hstore : st' = st)
      (hcall : p' = .retrying { Mapped.load jobId row with current := manualRetry clock row }) :
      CallMove settings st st' p p' (.manualRetry jobId clock)
  | commitRefused {jobId job} (hinserted : p = .inserted jobId job)
      (hviolates : violates st.jobs jobId job = true) (hstore : st' = st.unstage jobId)
      (hcall : (∃ existing, job.idempotencyKey.bind (findJobByIdempotencyKey st.jobs) =
          some existing ∧ p' = .returned (.existing existing)) ∨ p' = .raised .integrity) :
      CallMove settings st st' p p' .commit
  | commitSubmit {jobId job} (hinserted : p = .inserted jobId job)
      (hok : violates st.jobs jobId job = false)
      (hstore : st' = { st.unstage jobId with jobs := st.jobs.insert jobId job })
      (hcall : p' = .pushing jobId job) : CallMove settings st st' p p' .commit
  | commitCancel {m} (hcancelling : p = .cancelling m)
      (hstore : st' = { st with jobs := st.jobs.flush m }) (hcall : p' = .removing m.id) :
      CallMove settings st st' p p' .commit
  | commitRetry {m} (hretrying : p = .retrying m)
      (hstore : st' = { st with jobs := st.jobs.flush m }) (hcall : p' = .clearing m.id) :
      CallMove settings st st' p p' .commit
  | push {jobId job} (hpushing : p = .pushing jobId job)
      (hstore : st' = { st with redis := dispatch st.redis jobId job })
      (hcall : p' = .returned (.created jobId)) : CallMove settings st st' p p' .command
  | removePending {jobId} (hremoving : p = .removing jobId)
      (hstore : st' = { st with redis := st.redis.removePending jobId })
      (hcall : p' = .removingScheduled jobId) : CallMove settings st st' p p' .command
  | removeScheduled {jobId} (hremoving : p = .removingScheduled jobId)
      (hstore : st' = { st with redis := st.redis.removeScheduled jobId })
      (hcall : p' = .returned (.cancelled jobId)) : CallMove settings st st' p p' .command
  | clear {jobId} (hclearing : p = .clearing jobId)
      (hstore : st' = { st with redis := st.redis.removeDeadLetter jobId })
      (hcall : p' = .returned (.retried jobId)) : CallMove settings st st' p p' .command
  | fault {value} (howed : p.outstanding = some value) (hstore : st' = st)
      (hcall : p' = .raised .redis) : CallMove settings st st' p p' .fault
  | dropInserted {jobId job} (hinserted : p = .inserted jobId job)
      (hstore : st' = st.unstage jobId) (hcall : p' = .dropped) :
      CallMove settings st st' p p' .drop
  | drop (hinserted : ∀ jobId job, p ≠ .inserted jobId job) (hstore : st' = st)
      (hcall : p' = .dropped) : CallMove settings st st' p p' .drop

theorem callMove_of_step {st st' : Store} {p p' : Call} {b : CallAction}
    (h : callStep settings st p b = some (st', p')) : CallMove settings st st' p p' b := by
  cases b with
  | submit data key =>
    simp only [callStep] at h
    split at h
    · rw [Option.some.injEq, Prod.mk.injEq] at h
      obtain ⟨rfl, hcall⟩ := h
      unfold submitLookup at hcall
      split at hcall
      · rename_i message hnormal
        exact .submitInvalid rfl hnormal rfl hcall.symm
      · rename_i hnormal
        exact .submit rfl hnormal (by simp) rfl hcall.symm
      · rename_i normal hnormal
        split at hcall
        · rename_i jobId hfound
          exact .submitExisting rfl hnormal hfound rfl hcall.symm
        · rename_i hnew
          refine .submit rfl hnormal ?_ rfl hcall.symm
          rintro _ ⟨⟩
          exact hnew
    · cases h
  | insert jobId =>
    simp only [callStep] at h
    split at h
    · rename_i data key began
      split at h
      · cases h
      · rename_i hblocked
        split at h
        · rename_i hviolates
          cases h
          exact .insertRefused rfl (Bool.eq_false_of_not_eq_true hblocked) hviolates rfl rfl
        · rename_i hok
          cases h
          exact .insert rfl (Bool.eq_false_of_not_eq_true hblocked)
            (Bool.eq_false_of_not_eq_true hok) rfl rfl
    · cases h
  | cancel jobId =>
    simp only [callStep] at h
    split at h
    · rw [Option.some.injEq, Prod.mk.injEq] at h
      obtain ⟨rfl, hcall⟩ := h
      unfold cancelSelect at hcall
      split at hcall
      · rename_i hmissing
        exact .cancelMissing rfl hmissing rfl hcall.symm
      · rename_i row hrow
        split at hcall
        · rename_i hcancellable
          exact .cancel rfl hrow hcancellable rfl hcall.symm
        · rename_i hconflict
          exact .cancelRefused rfl hrow (Bool.eq_false_of_not_eq_true hconflict) rfl hcall.symm
    · cases h
  | manualRetry jobId clock =>
    simp only [callStep] at h
    split at h
    · rw [Option.some.injEq, Prod.mk.injEq] at h
      obtain ⟨rfl, hcall⟩ := h
      unfold retrySelect at hcall
      split at hcall
      · rename_i hmissing
        exact .retryMissing rfl hmissing rfl hcall.symm
      · rename_i row hrow
        split at hcall
        · rename_i hretryable
          exact .manualRetry rfl hrow hretryable rfl hcall.symm
        · rename_i hconflict
          exact .retryRefused rfl hrow (Bool.eq_false_of_not_eq_true hconflict) rfl hcall.symm
    · cases h
  | commit =>
    simp only [callStep] at h
    split at h
    · rename_i jobId job
      simp only [Option.some.injEq, submitCommit] at h
      split at h
      · rename_i hviolates
        cases h
        refine .commitRefused rfl hviolates rfl ?_
        split
        · rename_i existing hexisting
          exact Or.inl ⟨existing, hexisting, rfl⟩
        · exact Or.inr rfl
      · rename_i hok
        cases h
        exact .commitSubmit rfl (Bool.eq_false_of_not_eq_true hok) rfl rfl
    · cases h
      exact .commitCancel rfl rfl rfl
    · cases h
      exact .commitRetry rfl rfl rfl
    · cases h
  | command =>
    simp only [callStep] at h
    split at h
    · cases h
      exact .push rfl rfl rfl
    · cases h
      exact .removePending rfl rfl rfl
    · cases h
      exact .removeScheduled rfl rfl rfl
    · cases h
      exact .clear rfl rfl rfl
    · cases h
  | fault =>
    simp only [callStep] at h
    split at h
    all_goals cases h
    all_goals exact .fault rfl rfl rfl
  | drop =>
    simp only [callStep] at h
    split at h
    · cases h
      exact .dropInserted rfl rfl rfl
    · rename_i hother
      cases h
      exact .drop hother rfl rfl

theorem CallMove.now_eq {st st' : Store} {p p' : Call} {b : CallAction}
    (h : CallMove settings st st' p p' b) : st'.now = st.now := by
  cases h
  all_goals
    rename_i hstore _
    subst hstore
    rfl

/-- Only a commit changes the table. -/
theorem CallMove.jobs_eq {st st' : Store} {p p' : Call} {b : CallAction}
    (h : CallMove settings st st' p p' b) (hb : b ≠ .commit) : st'.jobs = st.jobs := by
  cases h with
  | commitRefused | commitSubmit | commitCancel | commitRetry => exact absurd rfl hb
  | _ =>
    rename_i hstore _
    subst hstore
    rfl

/-- Only a command changes Redis. -/
theorem CallMove.redis_eq {st st' : Store} {p p' : Call} {b : CallAction}
    (h : CallMove settings st st' p p' b) (hb : b ≠ .command) : st'.redis = st.redis := by
  cases h with
  | push | removePending | removeScheduled | clear => exact absurd rfl hb
  | _ =>
    rename_i hstore _
    subst hstore
    rfl

/-- Only calls that send an `INSERT`, or that have one outstanding, change the open rows. -/
theorem CallMove.staged_eq {st st' : Store} {p p' : Call} {b : CallAction}
    (h : CallMove settings st st' p p' b) (hp : ∀ jobId job, p ≠ .inserted jobId job)
    (hp' : ∀ jobId job, p' ≠ .inserted jobId job) : st'.staged = st.staged := by
  cases h with
  | insert _ _ _ _ hcall => exact absurd hcall (hp' _ _)
  | commitRefused hinserted _ _ _ | commitSubmit hinserted _ _ _ | dropInserted hinserted _ _ =>
    exact absurd hinserted (hp _ _)
  | _ =>
    rename_i hstore _
    rw [hstore]

/-! ## Maintenance -/

/-- A step of the maintenance process, from the stores `st` and the party `p` to `st'` and
`p'`. -/
inductive MaintenanceMove (st st' : Store) (p p' : Maintenance) : MaintenanceAction → Prop
  | feederSelect {limit order} (hfeeder : p.feeder = [])
      (hsorts : Table.Sorts st.jobs (Job.ready st.now) Job.feedsBefore order) (hstore : st' = st)
      (hparty : p' = { p with feeder := feederBatch st.jobs (order.take limit) }) :
      MaintenanceMove st st' p p' (.feederSelect limit order)
  | feederPush {jobId score rest} (hfeeder : p.feeder = (jobId, score) :: rest)
      (hstore : st' = { st with redis := (st.redis.enqueue jobId score true).1 })
      (hparty : p' = { p with feeder := rest }) : MaintenanceMove st st' p p' .feederPush
  | schedulerRead {clock limit} (hidle : p.scheduler = .idle) (hstore : st' = st)
      (hparty : p' = { p with
        scheduler := .scanning (st.redis.dueScheduled (timestamp clock) limit) clock limit }) :
      MaintenanceMove st st' p p' (.schedulerRead clock limit)
  | schedulerSelect {order redisIds moment limit}
      (hscanning : p.scheduler = .scanning redisIds moment limit)
      (hsorts : Table.Sorts st.jobs (Job.dueAt moment) Job.scheduledBefore order)
      (hstore : st' = st)
      (hparty : p' = { p with scheduler := .promoting (candidates redisIds (order.take limit)) }) :
      MaintenanceMove st st' p p' (.schedulerSelect order)
  | schedulerDone {began} (hpromoting : p.scheduler = .promoting []) (hstore : st' = st)
      (hparty : p' = { p with scheduler := .idle }) :
      MaintenanceMove st st' p p' (.schedulerUpdate began)
  | promote {began jobId rest row} (hpromoting : p.scheduler = .promoting (jobId :: rest))
      (hbegan : began ≤ st.now) (hrow : st.jobs.lookup jobId = some row)
      (hdue : row.dueAt began = true)
      (hstore : st' = { st with jobs := st.jobs.insert jobId row.promote })
      (hparty : p' = { p with
        scheduler := .removing jobId (priorityScore row.priority row.createdAt) rest }) :
      MaintenanceMove st st' p p' (.schedulerUpdate began)
  | pass {began jobId rest} (hpromoting : p.scheduler = .promoting (jobId :: rest))
      (hbegan : began ≤ st.now)
      (hstale : ∀ row, st.jobs.lookup jobId = some row → row.dueAt began = false)
      (hstore : st' = st) (hparty : p' = { p with scheduler := .dropping jobId rest }) :
      MaintenanceMove st st' p p' (.schedulerUpdate began)
  | dropStale {jobId rest} (hdropping : p.scheduler = .dropping jobId rest)
      (hstore : st' = { st with redis := st.redis.removeScheduled jobId })
      (hparty : p' = { p with scheduler := .promoting rest }) :
      MaintenanceMove st st' p p' .schedulerCommand
  | remove {jobId score rest} (hremoving : p.scheduler = .removing jobId score rest)
      (hstore : st' = { st with redis := st.redis.removeScheduled jobId })
      (hparty : p' = { p with scheduler := .enqueuing jobId score rest }) :
      MaintenanceMove st st' p p' .schedulerCommand
  | enqueue {jobId score rest} (henqueuing : p.scheduler = .enqueuing jobId score rest)
      (hstore : st' = { st with redis := (st.redis.enqueue jobId score).1 })
      (hparty : p' = { p with scheduler := .promoting rest }) :
      MaintenanceMove st st' p p' .schedulerCommand
  | reaperSelect {limit order} (hreaper : p.reaper = [])
      (hsorts : Table.Sorts st.jobs (Job.expired st.now) Job.leasedBefore order)
      (hstore : st' = st) (hparty : p' = { p with reaper := order.take limit }) :
      MaintenanceMove st st' p p' (.reaperSelect limit order)
  | reap {began jobId rest} (hreaper : p.reaper = jobId :: rest) (hbegan : began ≤ st.now)
      (hstore : st' = { st with jobs := (reapOne st.jobs began jobId).1 })
      (hparty : p' = { p with reaper := rest }) :
      MaintenanceMove st st' p p' (.reaperUpdate began)
  | cleanup {clock}
      (hstore : st' = { st with jobs := cleanupExpiredIdempotencyKeys st.jobs clock })
      (hparty : p' = p) : MaintenanceMove st st' p p' (.cleanup clock)
  | restart (hstore : st' = st) (hparty : p' = {}) : MaintenanceMove st st' p p' .restart

theorem maintenanceMove_of_step {st st' : Store} {p p' : Maintenance} {b : MaintenanceAction}
    (h : maintenanceStep st p b = some (st', p')) : MaintenanceMove st st' p p' b := by
  cases b with
  | feederSelect limit order =>
    simp only [maintenanceStep] at h
    split at h
    · rename_i hselect
      cases h
      exact .feederSelect hselect.1 hselect.2 rfl rfl
    · cases h
  | feederPush =>
    simp only [maintenanceStep] at h
    split at h
    · rename_i jobId score rest hfeeder
      cases h
      exact .feederPush hfeeder rfl rfl
    · cases h
  | schedulerRead clock limit =>
    simp only [maintenanceStep] at h
    split at h
    · rename_i hidle
      cases h
      exact .schedulerRead hidle rfl rfl
    · cases h
  | schedulerSelect order =>
    simp only [maintenanceStep] at h
    split at h
    · rename_i redisIds moment limit hscanning
      split at h
      · rename_i hsorts
        cases h
        exact .schedulerSelect hscanning hsorts rfl rfl
      · cases h
    · cases h
  | schedulerUpdate began =>
    simp only [maintenanceStep] at h
    split at h
    · rename_i hpromoting
      cases h
      exact .schedulerDone hpromoting rfl rfl
    · rename_i jobId rest hpromoting
      split at h
      · rename_i hbegan
        rcases Table.updateWhere_cases st.jobs jobId (Job.dueAt began) Job.promote with
          ⟨row, hrow, hdue, heq⟩ | ⟨hstale, heq⟩
        · rw [promoteScheduled, heq] at h
          cases h
          exact .promote hpromoting hbegan hrow hdue rfl rfl
        · rw [promoteScheduled, heq] at h
          cases h
          exact .pass hpromoting hbegan hstale rfl rfl
      · cases h
    · cases h
  | schedulerCommand =>
    simp only [maintenanceStep] at h
    split at h
    · rename_i jobId rest hdropping
      cases h
      exact .dropStale hdropping rfl rfl
    · rename_i jobId score rest hremoving
      cases h
      exact .remove hremoving rfl rfl
    · rename_i jobId score rest henqueuing
      cases h
      exact .enqueue henqueuing rfl rfl
    · cases h
  | reaperSelect limit order =>
    simp only [maintenanceStep] at h
    split at h
    · rename_i hselect
      cases h
      exact .reaperSelect hselect.1 hselect.2 rfl rfl
    · cases h
  | reaperUpdate began =>
    simp only [maintenanceStep] at h
    split at h
    · rename_i jobId rest hreaper
      split at h
      · rename_i hbegan
        cases h
        exact .reap hreaper hbegan rfl rfl
      · cases h
    · cases h
  | cleanup clock =>
    cases h
    exact .cleanup rfl rfl
  | restart =>
    cases h
    exact .restart rfl rfl

theorem MaintenanceMove.now_eq {st st' : Store} {p p' : Maintenance} {b : MaintenanceAction}
    (h : MaintenanceMove st st' p p' b) : st'.now = st.now := by
  cases h
  all_goals
    rename_i hstore _
    subst hstore
    rfl

theorem MaintenanceMove.staged_eq {st st' : Store} {p p' : Maintenance} {b : MaintenanceAction}
    (h : MaintenanceMove st st' p p' b) : st'.staged = st.staged := by
  cases h
  all_goals
    rename_i hstore _
    subst hstore
    rfl

/-! ## The whole system -/

/-- A step of the system: a party moves and the others stand still, the database clock moves
on, or Redis is changed from outside. -/
inductive Move (settings : Settings) (s s' : State) : Action → Prop
  | worker {w b}
      (hmove : WorkerMove settings w s.store s'.store (s.workers w) (s'.workers w) b)
      (hworkers : ∀ v, v ≠ w → s'.workers v = s.workers v) (hcalls : s'.calls = s.calls)
      (hmaintenance : s'.maintenance = s.maintenance) : Move settings s s' (.worker w b)
  | api {c b} (hmove : CallMove settings s.store s'.store (s.calls c) (s'.calls c) b)
      (hcalls : ∀ d, d ≠ c → s'.calls d = s.calls d) (hworkers : s'.workers = s.workers)
      (hmaintenance : s'.maintenance = s.maintenance) : Move settings s s' (.api c b)
  | maintenance {b}
      (hmove : MaintenanceMove s.store s'.store s.maintenance s'.maintenance b)
      (hworkers : s'.workers = s.workers) (hcalls : s'.calls = s.calls) :
      Move settings s s' (.maintenance b)
  | tick {t} (hle : s.store.now ≤ t) (hstore : s'.store = { s.store with now := t })
      (hworkers : s'.workers = s.workers) (hcalls : s'.calls = s.calls)
      (hmaintenance : s'.maintenance = s.maintenance) : Move settings s s' (.tick t)
  | tamper {redis} (hstore : s'.store = { s.store with redis := redis })
      (hworkers : s'.workers = s.workers) (hcalls : s'.calls = s.calls)
      (hmaintenance : s'.maintenance = s.maintenance) : Move settings s s' (.tamper redis)

theorem move_of_step (h : step settings s a = some s') : Move settings s s' a := by
  cases a with
  | worker w b =>
    obtain ⟨r, hr, rfl⟩ := Option.map_eq_some_iff.mp h
    have hmove := workerMove_of_step hr
    exact .worker (by simpa using hmove) (fun v hv => Function.update_of_ne hv _ _) rfl rfl
  | api c b =>
    obtain ⟨r, hr, rfl⟩ := Option.map_eq_some_iff.mp h
    have hmove := callMove_of_step hr
    exact .api (by simpa using hmove) (fun d hd => Function.update_of_ne hd _ _) rfl rfl
  | maintenance b =>
    obtain ⟨r, hr, rfl⟩ := Option.map_eq_some_iff.mp h
    exact .maintenance (maintenanceMove_of_step hr) rfl rfl
  | tick t =>
    simp only [step] at h
    split at h
    · rename_i hle
      cases h
      exact .tick hle rfl rfl rfl rfl
    · cases h
  | tamper redis =>
    cases h
    exact .tamper rfl rfl rfl rfl

end JobQueue
