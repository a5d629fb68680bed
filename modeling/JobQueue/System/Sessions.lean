import JobQueue.Model.AuditLog
import JobQueue.Model.Process

/-!
# What the parts of a turn leave

Each part of `process_one` ends with one commit. If it returns, the commit has written the
instance and one row of `job_logs`; if it raises, the tables, Redis and the lease holder are
as before the part, and only the instance in memory has changed. So whatever the handler does
and whatever PostgreSQL rejects, no part of a turn is ever half done.
-/

namespace JobQueue

variable {settings : Settings} {db : Postgres} {w : WorkerId}

namespace Py

variable {st st' : Attempt} {clock : Timestamp} {message : String} {permanent : Bool}

/-! ## What a part leaves when it returns -/

theorem of_load {m : Mapped} (h : load db st = .ok m st') : m = st.job ∧ st' = st := by
  rcases load_or db st with hok | ⟨_, hrefused⟩
  · rw [hok] at h
    cases h
    exact ⟨rfl, rfl⟩
  · rw [hrefused] at h
    cases h

theorem of_commit {u : Unit} (h : commit db st = .ok u st') :
    st' = st.flushed ∧ st.active = true := by
  cases hactive : st.active with
  | false =>
    rw [commit_refused hactive] at h
    cases h
  | true =>
    unfold commit at h
    rw [get_bind, if_neg (by simp [hactive])] at h
    split at h
    · cases h
      exact ⟨rfl, rfl⟩
    · cases h

/-- What the commit of an instance with new values and of new rows of `job_logs` leaves. -/
structure Leaves (st st' : Attempt) (job : Job) (redis : Redis) (log : List JobLog) : Prop where
  jobs : st'.jobs = st.jobs.flush { st.job with current := job }
  jobLogs : st'.jobLogs = st.jobLogs ++ (st.added ++ log)
  added : st'.added = []
  job : st'.job = { st.job with current := job }.flushed
  redis : st'.redis = redis
  holder : st'.holder = st.holder

theorem of_reportProgress {pct : Int} {u : Unit} (h : reportProgress db pct st = .ok u st') :
    Leaves st st' (JobQueue.reportProgress pct st.job.current) st.redis [] := by
  unfold reportProgress at h
  obtain ⟨_, st₁, hassign, h⟩ := EStateM.of_bind_ok h
  cases hassign
  obtain ⟨rfl, _⟩ := of_commit h
  exact ⟨rfl, by rw [List.append_nil]; rfl, rfl, rfl, rfl, rfl⟩

theorem of_completeJob {result : Json} {u : Unit} (h : completeJob db clock result st = .ok u st') :
    Leaves st st' (JobQueue.completeJob clock result st.job.current) st.redis
      [jobCompletedLog st.job.id] := by
  unfold completeJob at h
  obtain ⟨_, st₁, hassign, h⟩ := EStateM.of_bind_ok h
  cases hassign
  obtain ⟨m, st₂, hload, h⟩ := EStateM.of_bind_ok h
  obtain ⟨rfl, rfl⟩ := of_load hload
  obtain ⟨_, st₃, hlog, h⟩ := EStateM.of_bind_ok h
  cases hlog
  obtain ⟨rfl, _⟩ := of_commit h
  exact ⟨rfl, rfl, rfl, rfl, rfl, rfl⟩

theorem of_scheduleRetry {u : Unit} (hmessage : st.job.current.errorMessage = some message)
    (h : scheduleRetry settings db clock message st = .ok u st') :
    Leaves st st' (JobQueue.scheduleRetry settings clock st.job.current) st.redis
      [retryScheduledLog st.job.id (JobQueue.scheduleRetry settings clock st.job.current)] := by
  unfold scheduleRetry at h
  obtain ⟨_, st₁, hassign, h⟩ := EStateM.of_bind_ok h
  cases hassign
  obtain ⟨m, st₂, hload, h⟩ := EStateM.of_bind_ok h
  obtain ⟨rfl, rfl⟩ := of_load hload
  obtain ⟨_, st₃, hlog, h⟩ := EStateM.of_bind_ok h
  cases hlog
  obtain ⟨_, st₄, hcommit, h⟩ := EStateM.of_bind_ok h
  obtain ⟨rfl, _⟩ := of_commit hcommit
  obtain ⟨m, st₅, hload, h⟩ := EStateM.of_bind_ok h
  obtain ⟨_, rfl⟩ := of_load hload
  cases h
  refine ⟨rfl, ?_, rfl, rfl, rfl, rfl⟩
  simp [Attempt.flushed, retryScheduledLog, JobQueue.scheduleRetry, hmessage, textOrNull]

theorem of_failPermanently {u : Unit} (hmessage : st.job.current.errorMessage = some message)
    (h : failPermanently db clock message st = .ok u st') :
    Leaves st st' (JobQueue.failPermanently clock st.job.current)
      (st.redis.deadLetter st.job.id)
      [jobFailedLog st.job.id (JobQueue.failPermanently clock st.job.current)] := by
  unfold failPermanently at h
  obtain ⟨_, st₁, hassign, h⟩ := EStateM.of_bind_ok h
  cases hassign
  obtain ⟨m, st₂, hload, h⟩ := EStateM.of_bind_ok h
  obtain ⟨rfl, rfl⟩ := of_load hload
  obtain ⟨_, st₃, hlog, h⟩ := EStateM.of_bind_ok h
  cases hlog
  obtain ⟨_, st₄, hcommit, h⟩ := EStateM.of_bind_ok h
  obtain ⟨rfl, _⟩ := of_commit hcommit
  obtain ⟨m, st₅, hload, h⟩ := EStateM.of_bind_ok h
  obtain ⟨rfl, rfl⟩ := of_load hload
  obtain ⟨_, st₆, hdead, h⟩ := EStateM.of_bind_ok h
  cases hdead
  obtain ⟨m, st₇, hload, h⟩ := EStateM.of_bind_ok h
  obtain ⟨_, rfl⟩ := of_load hload
  cases h
  refine ⟨rfl, ?_, rfl, rfl, rfl, rfl⟩
  simp [Attempt.flushed, jobFailedLog, JobQueue.failPermanently, hmessage, textOrNull]

theorem of_retries {retry : Bool} (h : retries db permanent st = .ok retry st') :
    retry = JobQueue.retries permanent st.job.current ∧ st' = st := by
  rcases retries_or db permanent st with hok | ⟨_, hrefused⟩
  · rw [hok] at h
    cases h
    exact ⟨rfl, rfl⟩
  · rw [hrefused] at h
    cases h

/-- What the end of an attempt leaves: a job that has failed is in the dead-letter list, and
the outcome is on record. -/
def Concludes (st st' : Attempt) (job : Job) : Prop :=
  Leaves st st' job
    (if job.status = .failed then st.redis.deadLetter st.job.id else st.redis)
    [outcomeLog { st.job with current := job }]

theorem concludes_completeJob {result : Json} {u : Unit}
    (h : completeJob db clock result st = .ok u st') :
    Concludes st st' (JobQueue.completeJob clock result st.job.current) := of_completeJob h

theorem concludes_applyFailure {u : Unit}
    (h : applyFailure settings db clock message permanent st = .ok u st') :
    Concludes st st' (JobQueue.applyFailure settings clock message permanent st.job.current) := by
  unfold applyFailure at h
  obtain ⟨_, st₁, hassign, h⟩ := EStateM.of_bind_ok h
  cases hassign
  obtain ⟨retry, st₂, hretries, h⟩ := EStateM.of_bind_ok h
  obtain ⟨rfl, rfl⟩ := of_retries hretries
  have hsame : JobQueue.retries permanent (recordFailure message st.job.current) =
      JobQueue.retries permanent st.job.current := rfl
  simp only [hsame] at h
  unfold JobQueue.applyFailure
  by_cases hretry : JobQueue.retries permanent st.job.current = true
  · rw [if_pos hretry] at h ⊢
    obtain ⟨hjobs, hlogs, hadded, hjob, hredis, hholder⟩ := of_scheduleRetry rfl h
    exact ⟨hjobs, hlogs, hadded, hjob, hredis, hholder⟩
  · rw [if_neg hretry] at h ⊢
    obtain ⟨hjobs, hlogs, hadded, hjob, hredis, hholder⟩ := of_failPermanently rfl h
    exact ⟨hjobs, hlogs, hadded, hjob, hredis, hholder⟩

theorem of_start {u : Unit} (h : start db w st = .ok u st') :
    Leaves st st' st.job.current st.redis [jobStartedLog w st.job] ∧ st'.active = true := by
  unfold start at h
  obtain ⟨m, st₁, hload, h⟩ := EStateM.of_bind_ok h
  obtain ⟨rfl, rfl⟩ := of_load hload
  obtain ⟨_, st₂, hlog, h⟩ := EStateM.of_bind_ok h
  cases hlog
  obtain ⟨_, st₃, hcommit, h⟩ := EStateM.of_bind_ok h
  obtain ⟨rfl, hactive⟩ := of_commit hcommit
  obtain ⟨m, st₄, hload, h⟩ := EStateM.of_bind_ok h
  obtain ⟨_, rfl⟩ := of_load hload
  cases h
  exact ⟨⟨rfl, rfl, rfl, rfl, rfl, rfl⟩, hactive⟩

end Py

/-- What the `finally` clause leaves. -/
def Attempt.released (st : Attempt) : Process :=
  { st.toProcess with holder := if st.holder = some st.job.id then none else st.holder }

theorem Py.of_release {st st' : Attempt} {u : Unit} (h : Py.release db st = .ok u st') :
    st'.toProcess = st.released := by
  unfold Py.release at h
  obtain ⟨m, st₁, hload, h⟩ := EStateM.of_bind_ok h
  obtain ⟨rfl, rfl⟩ := of_load hload
  cases h
  by_cases hholder : st₁.holder = some st₁.job.id
  · simp [Attempt.released, hholder]
  · simp [Attempt.released, hholder]

/-- Closing the session keeps the stores, also when it closes on an exception. -/
theorem Attempt.of_close_ok {result : EStateM.Result Thrown Attempt Unit} {popped : Bool}
    {p : Process} (h : Attempt.close result = .ok popped p) :
    ∃ st, result = .ok () st ∧ p = st.toProcess := by
  cases result with
  | ok u st =>
    cases h
    exact ⟨st, rfl, rfl⟩
  | error exc st => cases h

theorem Attempt.of_close_error {result : EStateM.Result Thrown Attempt Unit} {exc : Thrown}
    {p : Process} (h : Attempt.close result = .error exc p) :
    ∃ st, result = .error exc st ∧ p = st.toProcess := by
  cases result with
  | ok u st => cases h
  | error exc' st =>
    cases h
    exact ⟨st, rfl, rfl⟩

/-! ## What an exception leaves of the session -/

namespace Py

open EStateM

/-- The session takes no statements. -/
def Broken (st : Attempt) : Prop := st.active = false

theorem breaks_load : Raises Broken (load db) := by
  intro st exc st' h
  rcases load_or db st with hok | ⟨hinactive, hrefused⟩
  · rw [hok] at h
    cases h
  · rw [hrefused] at h
    cases h
    exact hinactive

theorem breaks_commit : Raises Broken (commit db) := by
  intro st exc st' h
  cases hactive : st.active with
  | false =>
    rw [commit_refused hactive] at h
    cases h
    exact hactive
  | true =>
    unfold commit at h
    rw [get_bind, if_neg (by simp [hactive])] at h
    split at h
    · cases h
    · cases h
      rfl

theorem breaks_reportProgress (pct : Int) : Raises Broken (reportProgress db pct) :=
  (raises_modify _).bind fun _ => breaks_commit

theorem breaks_completeJob (clock : Timestamp) (result : Json) :
    Raises Broken (completeJob db clock result) :=
  (raises_modify _).bind fun _ => breaks_load.bind fun _ =>
    (raises_modify _).bind fun _ => breaks_commit

/-! ## What an exception leaves of the stores -/

theorem spares_load : Spares Attempt.toProcess (load db) := by
  intro st
  refine ⟨?_, ?_⟩
  · intro m st' h
    obtain ⟨_, rfl⟩ := of_load h
    rfl
  · intro exc st' h
    rcases load_or db st with hok | ⟨_, hrefused⟩
    · rw [hok] at h
      cases h
    · rw [hrefused] at h
      cases h
      rfl

theorem spares_assign (set : Job → Job) : Spares Attempt.toProcess (assign set) :=
  spares_modify fun _ => rfl

theorem spares_appendJobLog (jobId : UUID) (message : String) (level : LogLevel)
    (metadata : Json) : Spares Attempt.toProcess (appendJobLog jobId message level metadata) :=
  spares_modify fun _ => rfl

/-- A rejected commit is rolled back. -/
theorem atomic_commit : Atomic Attempt.toProcess (commit db) := by
  intro st exc st' h
  cases hactive : st.active with
  | false =>
    rw [commit_refused hactive] at h
    cases h
    rfl
  | true =>
    unfold commit at h
    rw [get_bind, if_neg (by simp [hactive])] at h
    split at h
    · cases h
    · cases h
      rfl

/-- After a commit the session takes statements again. -/
theorem active_of_commit {st st' : Attempt} {u : Unit} (h : commit db st = .ok u st') :
    st'.active = true := by
  obtain ⟨rfl, hactive⟩ := of_commit h
  exact hactive

/-- A commit, and what is known not to raise on a session that takes statements. -/
theorem atomic_commit_then {α : Type} {f : Unit → Py α}
    (hf : ∀ st, st.active = true → ∀ exc st', f () st ≠ .error exc st') :
    Atomic Attempt.toProcess (commit db >>= f) :=
  atomic_commit.bind_of_returns fun _ _ st' h => hf st' (active_of_commit h)

theorem atomic_reportProgress (pct : Int) : Atomic Attempt.toProcess (reportProgress db pct) :=
  Atomic.of_spares_bind (spares_assign _) fun _ => atomic_commit

theorem active_of_completeJob {st st' : Attempt} {clock : Timestamp} {result : Json} {u : Unit}
    (h : completeJob db clock result st = .ok u st') : st'.active = true := by
  unfold completeJob at h
  obtain ⟨_, _, _, h⟩ := of_bind_ok h
  obtain ⟨_, _, _, h⟩ := of_bind_ok h
  obtain ⟨_, _, _, h⟩ := of_bind_ok h
  exact active_of_commit h

theorem atomic_completeJob (clock : Timestamp) (result : Json) :
    Atomic Attempt.toProcess (completeJob db clock result) :=
  Atomic.of_spares_bind (spares_assign _) fun _ => Atomic.of_spares_bind spares_load fun _ =>
    Atomic.of_spares_bind (spares_appendJobLog _ _ _ _) fun _ => atomic_commit

/-- A load and nothing after it. -/
theorem load_returns {st : Attempt} (hactive : st.active = true) (exc : Thrown) (st' : Attempt) :
    (do let _ ← load db : Py Unit) st ≠ .error exc st' := by
  intro h
  rw [load_bind _ hactive] at h
  cases h

theorem atomic_start (w : WorkerId) : Atomic Attempt.toProcess (start db w) :=
  Atomic.of_spares_bind spares_load fun _ =>
    Atomic.of_spares_bind (spares_appendJobLog _ _ _ _) fun _ =>
      atomic_commit_then fun _ hactive => load_returns hactive

theorem atomic_scheduleRetry (settings : Settings) (clock : Timestamp) (message : String) :
    Atomic Attempt.toProcess (scheduleRetry settings db clock message) :=
  Atomic.of_spares_bind (spares_assign _) fun _ => Atomic.of_spares_bind spares_load fun _ =>
    Atomic.of_spares_bind (spares_appendJobLog _ _ _ _) fun _ =>
      atomic_commit_then fun _ hactive => load_returns hactive

theorem atomic_failPermanently (clock : Timestamp) (message : String) :
    Atomic Attempt.toProcess (failPermanently db clock message) := by
  refine Atomic.of_spares_bind (spares_assign _) fun _ => Atomic.of_spares_bind spares_load fun _ =>
    Atomic.of_spares_bind (spares_appendJobLog _ _ _ _) fun _ => atomic_commit_then ?_
  intro st hactive exc st' h
  -- the push to the dead-letter list comes after the commit, and leaves the session as it is
  rw [load_bind _ hactive] at h
  rcases of_bind_error h with hpush | ⟨_, st₁, hpush, hload⟩
  · cases hpush
  · cases hpush
    have hactive' : ({ st with redis := st.redis.deadLetter st.job.id } : Attempt).active = true :=
      hactive
    exact load_returns hactive' exc st' hload

theorem atomic_release : Atomic Attempt.toProcess (release db) :=
  Atomic.of_spares_bind spares_load fun _ => by
    intro st exc st' h
    cases h

/-- The `finally` clause passes an exception on or raises one of its own, and leaves the rows. -/
theorem release_after_error {st st' : Attempt} {x : Py Unit} {exc : Thrown}
    (h : x st = .error exc st') : ∃ exc' st'', tryFinally x (release db) st = .error exc' st'' ∧
      st''.jobs = st'.jobs := by
  obtain ⟨exc', st'', hraised, hend⟩ := tryFinally_of_error (y := release db) h
  refine ⟨exc', st'', hraised, ?_⟩
  rcases hend with ⟨_, hreleased⟩ | ⟨exc₁, hrefused⟩
  · have hstores : st''.toProcess = st'.released := of_release hreleased
    rw [hstores]
    rfl
  · have hstores : st''.toProcess = st'.toProcess := atomic_release st' exc₁ st'' hrefused
    rw [hstores]

theorem spares_retries (permanent : Bool) : Spares Attempt.toProcess (retries db permanent) := by
  unfold retries
  split
  · exact spares_pure false
  · exact spares_load.bind fun _ => spares_pure _

theorem atomic_applyFailure (settings : Settings) (clock : Timestamp) (message : String)
    (permanent : Bool) :
    Atomic Attempt.toProcess (applyFailure settings db clock message permanent) := by
  refine Atomic.of_spares_bind (spares_assign _) fun _ =>
    Atomic.of_spares_bind (spares_retries permanent) fun retry => ?_
  cases retry with
  | true => exact atomic_scheduleRetry settings clock message
  | false => exact atomic_failPermanently clock message

theorem spares_safeErrorMessage (exc : Thrown) :
    Spares Attempt.toProcess (safeErrorMessage exc) := by
  unfold safeErrorMessage
  split
  · exact spares_pure _
  · exact spares_throw _

theorem atomic_onException (settings : Settings) (clock : Timestamp) (exc : Thrown) :
    Atomic Attempt.toProcess (onException settings db clock exc) := by
  unfold onException
  split
  · exact Atomic.of_spares_bind spares_load fun _ => atomic_applyFailure settings clock _ false
  · exact Atomic.of_spares_bind (spares_safeErrorMessage exc) fun _ =>
      atomic_applyFailure settings clock _ true
  all_goals
    exact Atomic.of_spares_bind (spares_safeErrorMessage exc) fun _ =>
      Atomic.of_spares_bind spares_load fun _ => atomic_applyFailure settings clock _ false

/-! ## The `except` clauses -/

/-- The exception as the system has it. -/
def raised (exc : Thrown) : Raised :=
  let printed : PyException := ⟨exc.typeName, exc.text.getD ""⟩
  match exc.cls with
  | .timeoutError => .timeout
  | .unknownJobTypeError => .unknownJobType printed
  | .handlerError => .handlerError printed
  | .other => .other printed

theorem raised_message (settings : Settings) {exc : Thrown} {text : String}
    (h : exc.cls ≠ .timeoutError)
    (htext : exc.text = some text) : (raised exc).errorMessage settings =
      JobQueue.safeErrorMessage ⟨exc.typeName, text⟩ ∧
      (raised exc).permanent = decide (exc.cls = .unknownJobTypeError) := by
  unfold raised
  rw [htext]
  cases hcls : exc.cls with
  | timeoutError => exact absurd hcls h
  | unknownJobTypeError | handlerError | other => exact ⟨rfl, rfl⟩

/-- An `except` clause that returns has recorded its exception. -/
theorem of_onException {st st' : Attempt} {clock : Timestamp} {exc : Thrown} {u : Unit}
    (h : onException settings db clock exc st = .ok u st') : st.active = true ∧
      Concludes st st' ((raised exc).apply settings clock st.job.current) := by
  have hactive : st.active = true := by
    by_contra hinactive
    obtain ⟨exc', st₁, herror⟩ : ∃ exc' st₁, onException settings db clock exc st = .error exc' st₁ :=
      onException_refused settings clock exc (Bool.eq_false_of_not_eq_true hinactive)
    rw [h] at herror
    cases herror
  refine ⟨hactive, ?_⟩
  unfold Raised.apply
  by_cases hcls : exc.cls = .timeoutError
  · have hraised : raised exc = .timeout := by
      unfold raised
      rw [hcls]
    rw [onException_timeout clock hcls, load_bind _ hactive] at h
    rw [hraised]
    exact concludes_applyFailure h
  · cases htext : exc.text with
    | none =>
      obtain ⟨exc', st₁, herror⟩ : ∃ exc' st₁,
          onException settings db clock exc st = .error exc' st₁ :=
        onException_unprintable clock hcls htext
      rw [h] at herror
      cases herror
    | some text =>
      obtain ⟨hmessage, hpermanent⟩ := raised_message settings hcls htext
      rw [onException_message clock hcls htext hactive] at h
      rw [hmessage, hpermanent]
      exact concludes_applyFailure h

end Py

/-! ## The handler -/

namespace Py

variable {st st' : Attempt}

/-- A cancelled commit has left the stores as they were, or carried out the commit, and the
session takes no more statements. -/
theorem cancelledCommit_ends (db : Postgres) (point : CancelPoint) (st : Attempt) :
    ∃ exc st', cancelledCommit db point st = .error exc st' ∧ st'.active = false ∧
      (st'.toProcess = st.toProcess ∨
        (commit db st = .ok ⟨⟩ st.flushed ∧ st'.toProcess = st.flushed.toProcess)) := by
  unfold cancelledCommit
  rw [get_bind]
  cases hactive : st.active with
  | false => exact ⟨db.refusal, st, rfl, hactive, Or.inl rfl⟩
  | true =>
    rw [if_neg (by simp)]
    cases point with
    | flush => exact ⟨timeoutError, _, rfl, rfl, Or.inl rfl⟩
    | commit done =>
      cases haccepts : db.accepts st with
      | false => exact ⟨db.rejection, _, rfl, rfl, Or.inl rfl⟩
      | true =>
        refine ⟨timeoutError, _, rfl, rfl, ?_⟩
        cases done with
        | false => exact Or.inl rfl
        | true =>
          refine Or.inr ⟨?_, rfl⟩
          unfold commit
          rw [get_bind, if_neg (by simp [hactive]), if_pos haccepts]
          rfl

/-- A report whose commit is cancelled leaves the stores as they were, or as they are after
the report. -/
theorem cancelledReport_ends (db : Postgres) (pct : Int) (point : CancelPoint) (st : Attempt) :
    ∃ exc st', cancelledReport db pct point st = .error exc st' ∧ st'.active = false ∧
      (st'.toProcess = st.toProcess ∨
        ∃ st₁, reportProgress db pct st = .ok ⟨⟩ st₁ ∧ st'.toProcess = st₁.toProcess) := by
  unfold cancelledReport reportProgress
  rw [assign_bind, assign_bind]
  obtain ⟨exc, st', hraised, hinactive, hstores⟩ := cancelledCommit_ends db point
    { st with job := { st.job with current := JobQueue.reportProgress pct st.job.current } }
  refine ⟨exc, st', hraised, hinactive, ?_⟩
  rcases hstores with hsame | ⟨hcommitted, hdone⟩
  · exact Or.inl hsame
  · exact Or.inr ⟨_, hcommitted, hdone⟩

theorem endHandler_interrupted {pct : Int} {point : CancelPoint} {exc : Thrown}
    (h : cancelledReport db pct point st = .error exc st') :
    endHandler db true (.interrupted pct point) st = .error exc st' :=
  EStateM.bind_of_error h _

theorem of_endHandler_ok {reporter : Bool} {ending : Ending} {result : Json}
    (h : endHandler db reporter ending st = .ok result st') : st' = st := by
  cases ending with
  | returns result =>
    cases h
    rfl
  | raises exc => cases h
  | overruns => cases h
  | interrupted pct point =>
    cases reporter with
    | false => cases h
    | true =>
      obtain ⟨exc, st₁, hraised, _⟩ := cancelledReport_ends db pct point st
      rw [endHandler_interrupted hraised] at h
      cases h

/-- The end of a handler that raises is that of the handler alone, or that of a report. -/
theorem of_endHandler_error {reporter : Bool} {ending : Ending} {exc : Thrown}
    (h : endHandler db reporter ending st = .error exc st') :
    st' = st ∨ (reporter = true ∧ ∃ pct point, cancelledReport db pct point st = .error exc st') := by
  cases ending with
  | returns result => cases h
  | raises exc =>
    cases h
    exact Or.inl rfl
  | overruns =>
    cases h
    exact Or.inl rfl
  | interrupted pct point =>
    cases reporter with
    | false =>
      cases h
      exact Or.inl rfl
    | true =>
      obtain ⟨exc₁, st₁, hraised, _⟩ := cancelledReport_ends db pct point st
      rw [endHandler_interrupted hraised] at h
      cases h
      exact Or.inr ⟨rfl, pct, point, hraised⟩

theorem runHandler_of_active {behaviour : Behaviour} (h : st.active = true) :
    runHandler db behaviour st =
      if st.job.current.jobType = .batch then
        (forM behaviour.reports (reportProgress db) >>=
          fun _ => endHandler db true behaviour.ending) st
      else endHandler db false behaviour.ending st := by
  unfold runHandler
  rw [load_bind _ h]
  split
  · rename_i hbatch
    simp only [hbatch, decide_true]
  · rename_i hother
    simp only [hother, decide_false]

end Py

end JobQueue
