import JobQueue.Model.Service
import JobQueue.System.Sessions

/-!
# A bad job and its worker

`process_one` catches whatever a handler raises, but it finalises the job inside the same
`try` statement and on the same session. A finalising commit that PostgreSQL rejects leaves a
session that refuses even to reload `job.id`, so the failure path raises in turn, and so does
the `finally` clause: the exception ends the executor and the row stays processing
(`nul_result_escapes`). A timeout that cancels the commit of a progress report ends the turn
the same way, since the failure path has to commit on that session (`cut_report_escapes`). A
turn is contained exactly when neither happens (`bad_job_contained`).
-/

namespace JobQueue

open Relational

/-! ## What PostgreSQL takes -/

/-- A value of a JSON document as the log rows have it. -/
def Json.Small (v : Json) : Prop :=
  (∃ s : String, s.length ≤ 1000 ∧ v = .str s) ∨ ∃ n : Nat, n < 2 ^ 31 ∧ v = .int n

/-- Plain texts are stored. A `JSONB` column takes a flat document with short strings if a
`TEXT` column takes its strings. -/
structure Postgres.Lawful (db : Postgres) : Prop where
  plain : ∀ s, plain s = true → db.text s = true
  flat : ∀ fields, (∀ f ∈ fields, Json.Small f.2) → (db.jsonb (.obj fields) = true ↔
    ∀ f ∈ fields, db.text f.1 = true ∧ ∀ s, f.2 = .str s → db.text s = true)

/-- PostgreSQL takes what the ending of a handler makes the worker store: the result, or the
stripped text of the exception, in its place the name of its class, up to 1000 characters. -/
def Ending.storable (db : Postgres) : Ending → Bool
  | .returns result => db.jsonb result
  | .raises exc => exc.cls = .timeoutError || exc.text.any fun text =>
      db.text (truncateTo 1000 (if (strip text).isEmpty then exc.typeName else strip text))
  | .overruns | .interrupted _ _ => true

/-- The timeout falls into the commit of a progress report, which only a batch handler makes. -/
def Ending.cutsReport (jobType : JobType) : Ending → Bool
  | .interrupted _ _ => jobType = .batch
  | .returns _ | .raises _ | .overruns => false

/-- The row has left `processing`, and its lease is cleared. -/
structure Job.Finalised (job : Job) : Prop where
  status : job.status = .completed ∨ (job.status = .pending ∧ job.nextRunAt.isSome) ∨
    job.status = .failed
  lease : job.leasedUntil = none

/-- The turn returns `True` and has finalised the row. -/
def Contained (jobId : UUID) (result : EStateM.Result Thrown Process Bool) : Prop :=
  ∃ p row, result = .ok true p ∧ p.jobs.lookup jobId = some row ∧ row.Finalised

/-! ## Clean sessions -/

/-- Nothing is outstanding in the session, and its instance is the committed row. -/
structure Clean (jobId : UUID) (row : Job) (st : Attempt) : Prop where
  job : st.job = Mapped.load jobId row
  active : st.active = true
  added : st.added = []
  row : st.jobs.lookup jobId = some row

/-- The columns hold what they take. -/
structure Job.Stored (db : Postgres) (row : Job) : Prop where
  result : ∀ result, row.result = some result → db.jsonb result = true
  attempts : row.attemptCount < 2 ^ 31

namespace Py

variable {settings : Settings} {db : Postgres} {jobId : UUID} {row row' : Job} {st : Attempt}

/-- How a part of the turn that commits once ends: it returns on a clean session if PostgreSQL
takes what it stores, and otherwise raises and leaves the session to be rolled back. -/
structure Settles (jobId : UUID) (row : Job) (taken : Bool)
    (result : EStateM.Result Thrown Attempt Unit) : Prop where
  returns : taken = true → ∃ st, result = .ok () st ∧ Clean jobId row st
  raises : taken = false → ∃ exc st, result = .error exc st ∧ st.active = false

/-- A commit with the new values `row'` in the instance. -/
theorem commit_settles {taken : Bool}
    (hjob : st.job = { id := jobId, loaded := row, current := row' })
    (hactive : st.active = true) (hrow : st.jobs.lookup jobId = some row)
    (haccepts : db.accepts st = taken) : Settles jobId row' taken (commit db st) := by
  subst haccepts
  unfold commit
  rw [get_bind, if_neg (by simp [hactive])]
  constructor
  · intro haccepts
    rw [if_pos haccepts]
    refine ⟨st.flushed, rfl, ?_, hactive, rfl, ?_⟩
    · simp [Attempt.flushed, hjob, Mapped.flushed, Mapped.load]
    simp only [Attempt.flushed, Jobs.lookup_flush, hjob, if_pos, hrow, Option.map_some]
    rw [Mapped.flush_loaded { id := jobId, loaded := row, current := row' }]
  · intro hrejected
    rw [if_neg (by simp [hrejected])]
    exact ⟨_, _, rfl, rfl⟩

/-- What follows the commit and returns on a clean session does not change how it ends. -/
theorem Settles.bind {x : Py Unit} {taken : Bool} {f : Unit → Py Unit}
    (h : Settles jobId row taken (x st))
    (hf : ∀ st, Clean jobId row st → ∃ st', f () st = .ok () st' ∧ Clean jobId row st') :
    Settles jobId row taken ((x >>= f) st) where
  returns htaken := by
    obtain ⟨st₁, hx, hclean⟩ := h.returns htaken
    rw [EStateM.bind_of_ok hx]
    exact hf st₁ hclean
  raises hrejected := by
    obtain ⟨exc, st₁, hx, hinactive⟩ := h.raises hrejected
    exact ⟨exc, st₁, EStateM.bind_of_error hx f, hinactive⟩

/-- Logging reads the instance. -/
theorem log_ok (h : Clean jobId row st) :
    ∃ st', (do let _ ← load db) st = .ok () st' ∧ Clean jobId row st' :=
  ⟨st, load_bind _ h.active, h⟩

/-! ## Start and progress -/

/-- The documents of the log rows are taken if the strings in them are. -/
theorem flat_obj (hlaw : db.Lawful) {fields : List (String × Json)}
    (hkeys : ∀ f ∈ fields, plain f.1 = true) (hsmall : ∀ f ∈ fields, Json.Small f.2) :
    db.jsonb (.obj fields) = true ↔ ∀ f ∈ fields, ∀ s, f.2 = .str s → db.text s = true := by
  rw [hlaw.flat fields hsmall]
  constructor
  · intro h f hf
    exact (h f hf).2
  · intro h f hf
    exact ⟨hlaw.plain _ (hkeys f hf), h f hf⟩

@[simp] theorem takes_self {β : Type} [DecidableEq β] (column : β → Bool) (value : Option β) :
    takes column value value = true := by
  simp [takes]

theorem start_ok {workerId : WorkerId} (hlaw : db.Lawful) (hworker : plain workerId = true)
    (hshort : workerId.length ≤ 255) (h : Clean jobId row st) (hstored : row.Stored db) :
    ∃ st', start db workerId st = .ok ⟨⟩ st' ∧ Clean jobId row st' := by
  have hstatus : plain row.status.value = true ∧ row.status.value.length ≤ 1000 := by
    cases row.status <;> decide
  have hdocument : db.jsonb (.obj [("status", .str row.status.value), ("worker_id", .str workerId),
      ("attempt_count", .int row.attemptCount)]) = true := by
    refine (flat_obj hlaw ?_ ?_).mpr ?_
    · simp only [List.forall_mem_cons, List.not_mem_nil, false_implies, implies_true, and_true]
      decide
    · simp only [List.forall_mem_cons, List.not_mem_nil, false_implies, implies_true, and_true]
      exact ⟨Or.inl ⟨_, hstatus.2, rfl⟩, Or.inl ⟨_, by omega, rfl⟩,
        Or.inr ⟨_, hstored.attempts, rfl⟩⟩
    · simp [hlaw.plain _ hstatus.1, hlaw.plain _ hworker]
  unfold start
  rw [load_bind _ h.active, appendJobLog_bind, h.added]
  refine Settles.returns (Settles.bind (commit_settles h.job h.active h.row ?_) fun _ => log_ok) rfl
  simp [Postgres.accepts, h.job, Mapped.load, hdocument, hlaw.plain "job started" (by decide)]

theorem reportProgress_ok (db : Postgres) (pct : Int) (h : Clean jobId row st) :
    ∃ st', reportProgress db pct st = .ok () st' ∧
      Clean jobId (JobQueue.reportProgress pct row) st' := by
  unfold reportProgress
  rw [assign_bind, h.job]
  refine Settles.returns (commit_settles ?_ h.active h.row ?_) rfl
  · rfl
  · simp [Postgres.accepts, Mapped.load, JobQueue.reportProgress, h.added]

/-- Reports that are not cut are committed on clean sessions. -/
theorem reports_ok (reports : List Int) (h : Clean jobId row st) (hstored : row.Stored db) :
    ∃ st' row', (forM reports (reportProgress db) : Py Unit) st = .ok ⟨⟩ st' ∧
      Clean jobId row' st' ∧ row'.Stored db ∧ row'.status = row.status := by
  let Kept (st : Attempt) : Prop :=
    ∃ row', Clean jobId row' st ∧ row'.Stored db ∧ row'.status = row.status
  have hreport : ∀ pct st, Kept st → ∃ st', reportProgress db pct st = .ok ⟨⟩ st' ∧ Kept st' := by
    rintro pct st ⟨row₁, h₁, hstored₁, hstatus₁⟩
    obtain ⟨st₂, hst₂, h₂⟩ := reportProgress_ok db pct h₁
    exact ⟨st₂, hst₂, _, h₂, ⟨hstored₁.result, hstored₁.attempts⟩, hstatus₁⟩
  obtain ⟨st', hreports, row', hkept⟩ :=
    EStateM.forM_of_ok hreport reports ⟨row, h, hstored, rfl⟩
  exact ⟨st', row', hreports, hkept⟩

/-- The handler's reports are committed, and it ends as it does, on a clean session. -/
theorem runHandler_eq (behaviour : Behaviour) (h : Clean jobId row st) (hstored : row.Stored db) :
    ∃ st' row', Clean jobId row' st' ∧ row'.Stored db ∧ row'.status = row.status ∧
      runHandler db behaviour st =
        endHandler db (row.jobType = .batch) behaviour.ending st' := by
  have htype : st.job.current.jobType = row.jobType := by
    rw [h.job]
    rfl
  rw [runHandler_of_active h.active, htype]
  by_cases hbatch : row.jobType = .batch
  · obtain ⟨st', row', hreports, h', hstored', hstatus'⟩ := reports_ok behaviour.reports h hstored
    refine ⟨st', row', h', hstored', hstatus', ?_⟩
    rw [if_pos hbatch, EStateM.bind_of_ok hreports, decide_eq_true hbatch]
  · refine ⟨st, row, h, hstored, rfl, ?_⟩
    rw [if_neg hbatch, decide_eq_false hbatch]

/-! ## Completion -/

theorem accepts_completed (hlaw : db.Lawful) (result : Json) {clock : Timestamp}
    (hstored : row.Stored db)
    (hjob : st.job = { id := jobId, loaded := row, current := JobQueue.completeJob clock result row })
    (hadded : st.added = [⟨jobId, .info, "job completed",
      .obj [("status", .str JobStatus.completed.value)]⟩]) :
    db.accepts st = db.jsonb result := by
  have hdocument : db.jsonb (.obj [("status", .str JobStatus.completed.value)]) = true := by
    refine (flat_obj hlaw ?_ ?_).mpr ?_
    · simp only [List.forall_mem_singleton]
      decide
    · simp only [List.forall_mem_singleton]
      exact Or.inl ⟨_, by decide, rfl⟩
    · simp [hlaw.plain JobStatus.completed.value (by decide)]
  have hmessage := hlaw.plain "job completed" (by decide)
  have hresult : takes db.jsonb row.result (some result) = db.jsonb result := by
    unfold takes
    by_cases hsame : some result = row.result
    · simp [hsame, hstored.result result hsame.symm]
    · simp [hsame]
  have herror : takes db.text row.errorMessage none = true := by simp [takes]
  simp [Postgres.accepts, hjob, hadded, hdocument, hmessage, JobQueue.completeJob, hresult, herror]

theorem completeJob_settles (result : Json) (hlaw : db.Lawful) (clock : Timestamp)
    (h : Clean jobId row st) (hstored : row.Stored db) :
    Settles jobId (JobQueue.completeJob clock result row) (db.jsonb result)
      (completeJob db clock result st) := by
  unfold completeJob
  rw [assign_bind, load_bind, appendJobLog_bind, h.job, h.added]
  · refine commit_settles ?_ h.active h.row ?_
    · rfl
    · exact accepts_completed hlaw result hstored rfl rfl
  · exact h.active

/-! ## Failure -/

/-- The commit of a failure is taken if its message is: the log row repeats the message. -/
theorem accepts_failed {message note : String} {level : LogLevel} {metadata : Json}
    (hnote : db.text note = true) (hmetadata : db.jsonb metadata = db.text message)
    (hjob : st.job = { id := jobId, loaded := row, current := row' })
    (hresult : row'.result = none) (herror : row'.errorMessage = some message)
    (hadded : st.added = [⟨jobId, level, note, metadata⟩]) :
    db.accepts st = db.text message := by
  unfold Postgres.accepts
  rw [hjob, hadded, hresult, herror]
  cases htext : db.text message <;> simp [takes, hnote, hmetadata, htext]

theorem retry_document {message : String} (hlaw : db.Lawful) (hstored : row.Stored db)
    (hlength : message.length ≤ 1000) (nextRunAt : Timestamp) :
    db.jsonb (.obj [("status", .str JobStatus.pending.value),
      ("attempt_count", .int row.attemptCount), ("error_message", .str message),
      ("next_run_at", .str (isoformat nextRunAt))]) = db.text message := by
  have hpending := hlaw.plain JobStatus.pending.value (by decide)
  have hnext := hlaw.plain _ (plain_isoformat nextRunAt)
  have hshort := length_isoformat nextRunAt
  rw [Bool.eq_iff_iff, flat_obj hlaw]
  · simp [hpending, hnext]
  · simp only [List.forall_mem_cons, List.not_mem_nil, false_implies, implies_true, and_true]
    decide
  · simp only [List.forall_mem_cons, List.not_mem_nil, false_implies, implies_true, and_true]
    exact ⟨Or.inl ⟨_, by decide, rfl⟩, Or.inr ⟨_, hstored.attempts, rfl⟩,
      Or.inl ⟨_, hlength, rfl⟩, Or.inl ⟨_, by omega, rfl⟩⟩

theorem failed_document {message : String} (hlaw : db.Lawful) (hstored : row.Stored db)
    (hlength : message.length ≤ 1000) :
    db.jsonb (.obj [("status", .str JobStatus.failed.value),
      ("attempt_count", .int row.attemptCount), ("error_message", .str message)]) =
        db.text message := by
  have hfailed := hlaw.plain JobStatus.failed.value (by decide)
  rw [Bool.eq_iff_iff, flat_obj hlaw]
  · simp [hfailed]
  · simp only [List.forall_mem_cons, List.not_mem_nil, false_implies, implies_true, and_true]
    decide
  · simp only [List.forall_mem_cons, List.not_mem_nil, false_implies, implies_true, and_true]
    exact ⟨Or.inl ⟨_, by decide, rfl⟩, Or.inr ⟨_, hstored.attempts, rfl⟩,
      Or.inl ⟨_, hlength, rfl⟩⟩

/-- An instance after the assignments both branches of `apply_failure` make. -/
structure Failing (jobId : UUID) (row : Job) (message : String) (st : Attempt) : Prop where
  job : st.job = { id := jobId, loaded := row, current := recordFailure message row }
  active : st.active = true
  added : st.added = []
  row : st.jobs.lookup jobId = some row

theorem scheduleRetry_settles {message : String} (hlaw : db.Lawful) (clock : Timestamp)
    (h : Failing jobId row message st) (hstored : row.Stored db)
    (hlength : message.length ≤ 1000) :
    Settles jobId (JobQueue.scheduleRetry settings clock (recordFailure message row))
      (db.text message) (scheduleRetry settings db clock message st) := by
  unfold scheduleRetry
  rw [assign_bind, load_bind, appendJobLog_bind, h.job, h.added]
  · refine Settles.bind (commit_settles ?_ h.active h.row ?_) fun _ h => log_ok h
    · rfl
    · exact accepts_failed (hlaw.plain _ (by decide)) (retry_document hlaw hstored hlength _) rfl
        rfl rfl rfl
  · exact h.active

theorem failPermanently_settles {message : String} (hlaw : db.Lawful) (clock : Timestamp)
    (h : Failing jobId row message st) (hstored : row.Stored db)
    (hlength : message.length ≤ 1000) :
    Settles jobId (JobQueue.failPermanently clock (recordFailure message row))
      (db.text message) (failPermanently db clock message st) := by
  unfold failPermanently
  rw [assign_bind, load_bind, appendJobLog_bind, h.job, h.added]
  · refine Settles.bind (commit_settles ?_ h.active h.row ?_) ?_
    · rfl
    · exact accepts_failed (hlaw.plain _ (by decide)) (failed_document hlaw hstored hlength) rfl
        rfl rfl rfl
    · intro st' hclean
      rw [load_bind _ hclean.active]
      exact log_ok ⟨hclean.job, hclean.active, hclean.added, hclean.row⟩
  · exact h.active

/-- `apply_failure` finalises the row if PostgreSQL takes the message. -/
theorem applyFailure_settles {message : String} (settings : Settings) (permanent : Bool)
    (hlaw : db.Lawful) (clock : Timestamp) (h : Clean jobId row st) (hstored : row.Stored db)
    (hlength : message.length ≤ 1000) :
    ∃ row', row'.Finalised ∧ Settles jobId row' (db.text message)
      (applyFailure settings db clock message permanent st) := by
  let st₁ : Attempt := { st with job := ⟨jobId, row, recordFailure message row⟩ }
  have hfailing : Failing jobId row message st₁ := ⟨rfl, h.active, h.added, h.row⟩
  have hretries : retries db permanent st₁ = .ok (JobQueue.retries permanent row) st₁ := by
    rcases retries_or db permanent st₁ with hok | ⟨hinactive, _⟩
    · exact hok
    · rw [hfailing.active] at hinactive
      cases hinactive
  unfold applyFailure
  rw [assign_bind, h.job]
  cases hretry : JobQueue.retries permanent row with
  | true =>
    rw [hretry] at hretries
    refine ⟨JobQueue.scheduleRetry settings clock (recordFailure message row),
      ⟨Or.inr (Or.inl ⟨rfl, rfl⟩), rfl⟩, ?_⟩
    show Settles _ _ _ ((retries db permanent >>= _) st₁)
    rw [EStateM.bind_of_ok hretries]
    exact scheduleRetry_settles hlaw clock hfailing hstored hlength
  | false =>
    rw [hretry] at hretries
    refine ⟨JobQueue.failPermanently clock (recordFailure message row),
      ⟨Or.inr (Or.inr rfl), rfl⟩, ?_⟩
    show Settles _ _ _ ((retries db permanent >>= _) st₁)
    rw [EStateM.bind_of_ok hretries]
    exact failPermanently_settles hlaw clock hfailing hstored hlength

/-! ## The `except` clauses -/

/-- How the part of the turn under the `try` statements ends. -/
structure Ends (jobId : UUID) (taken : Bool) (result : EStateM.Result Thrown Attempt Unit) :
    Prop where
  returns : taken = true → ∃ row st, row.Finalised ∧ result = .ok () st ∧ Clean jobId row st
  raises : taken = false → ∃ exc st, result = .error exc st

theorem Settles.ends {taken : Bool} {result : EStateM.Result Thrown Attempt Unit}
    (h : Settles jobId row taken result) (hfinalised : row.Finalised) : Ends jobId taken result where
  returns htaken := by
    obtain ⟨st, hresult, hclean⟩ := h.returns htaken
    exact ⟨row, st, hfinalised, hresult, hclean⟩
  raises hrejected := by
    obtain ⟨exc, st, hresult, _⟩ := h.raises hrejected
    exact ⟨exc, st, hresult⟩

theorem applyFailure_ends {message : String} (settings : Settings) (permanent : Bool)
    (hlaw : db.Lawful) (clock : Timestamp) (h : Clean jobId row st) (hstored : row.Stored db)
    (hlength : message.length ≤ 1000) :
    Ends jobId (db.text message) (applyFailure settings db clock message permanent st) := by
  obtain ⟨row', hfinalised, hsettles⟩ :=
    applyFailure_settles settings permanent hlaw clock h hstored hlength
  exact hsettles.ends hfinalised

/-- A failed handler is recorded if PostgreSQL takes its message. -/
theorem onException_ends (clock : Timestamp) (exc : Thrown) (hlaw : db.Lawful)
    (htimeout : plain settings.jobTimeoutText = true)
    (hshort : settings.jobTimeoutText.length ≤ 255) (h : Clean jobId row st)
    (hstored : row.Stored db) :
    Ends jobId ((Ending.raises exc).storable db) (onException settings db clock exc st) := by
  by_cases hcls : exc.cls = .timeoutError
  · have hplain : db.text ("timed out after " ++ settings.jobTimeoutText ++ "s") = true := by
      refine hlaw.plain _ ?_
      rw [plain_append, plain_append, htimeout]
      decide
    have hlength : ("timed out after " ++ settings.jobTimeoutText ++ "s").length ≤ 1000 := by
      have hfixed : "timed out after ".length = 16 ∧ "s".length = 1 := by decide
      rw [String.length_append, String.length_append]
      omega
    have hends := applyFailure_ends settings false hlaw clock h hstored hlength
    rw [hplain] at hends
    rw [onException_timeout clock hcls, load_bind _ h.active]
    simpa [Ending.storable, hcls] using hends
  · cases htext : exc.text with
    | none =>
      constructor
      · intro hstorable
        simp [Ending.storable, hcls, htext] at hstorable
      · intro _
        exact onException_unprintable clock hcls htext
    | some text =>
      rw [onException_message clock hcls htext h.active]
      have hends := applyFailure_ends settings (exc.cls = .unknownJobTypeError) hlaw clock h
        hstored (length_truncateTo 1000
          (if (strip text).isEmpty then exc.typeName else strip text))
      have hstorable : (Ending.raises exc).storable db = db.text (truncateTo 1000
          (if (strip text).isEmpty then exc.typeName else strip text)) := by
        simp [Ending.storable, hcls, htext]
      rw [hstorable]
      exact hends

/-! ## The turn -/

theorem runJob_of_error {clocks : Clocks} {behaviour : Behaviour} {exc : Thrown} {st' : Attempt}
    (h : runHandler db behaviour st = .error exc st') :
    runJob settings db clocks behaviour st = onException settings db clocks.failed exc st' :=
  EStateM.tryCatch_of_error (EStateM.bind_of_error h _) _

/-- After a report that is cut no clause can finalise the row: the stores stay as they are
then. -/
theorem runJob_cut (settings : Settings) {clocks : Clocks} {behaviour : Behaviour} {pct : Int}
    {point : CancelPoint} {st₁ : Attempt}
    (hhandler : runHandler db behaviour st = endHandler db true (.interrupted pct point) st₁) :
    ∃ exc st', runJob settings db clocks behaviour st = .error exc st' ∧
      (st'.toProcess = st₁.toProcess ∨
        ∃ st₂, reportProgress db pct st₁ = .ok ⟨⟩ st₂ ∧ st'.toProcess = st₂.toProcess) := by
  obtain ⟨exc, st₂, hcut, hinactive, hstores⟩ := cancelledReport_ends db pct point st₁
  rw [endHandler_interrupted hcut] at hhandler
  obtain ⟨exc', st₃, hescaped⟩ : ∃ exc' st', onException settings db clocks.failed exc st₂ =
    .error exc' st' := onException_refused settings clocks.failed exc hinactive
  have hsame : st₃.toProcess = st₂.toProcess :=
    atomic_onException settings clocks.failed exc st₂ exc' st₃ hescaped
  refine ⟨exc', st₃, ?_, ?_⟩
  · rw [runJob_of_error hhandler]
    exact hescaped
  · rw [hsame]
    exact hstores

theorem runJob_ends (clocks : Clocks) (behaviour : Behaviour) (hlaw : db.Lawful)
    (htimeout : plain settings.jobTimeoutText = true)
    (hshort : settings.jobTimeoutText.length ≤ 255) (h : Clean jobId row st)
    (hstored : row.Stored db) :
    Ends jobId (behaviour.ending.storable db && !behaviour.ending.cutsReport row.jobType)
      (runJob settings db clocks behaviour st) := by
  obtain ⟨st', row', hclean, hstored', _, hhandler⟩ := runHandler_eq behaviour h hstored
  have hraised : ∀ exc, runHandler db behaviour st = .error exc st' →
      Ends jobId ((Ending.raises exc).storable db) (runJob settings db clocks behaviour st) := by
    intro exc herror
    rw [runJob_of_error herror]
    exact onException_ends clocks.failed exc hlaw htimeout hshort hclean hstored'
  cases hending : behaviour.ending with
  | returns result =>
    rw [hending] at hhandler
    replace hhandler : runHandler db behaviour st = .ok result st' := hhandler
    have hsettles := completeJob_settles result hlaw clocks.completed hclean hstored'
    have htaken : ((Ending.returns result).storable db &&
        !(Ending.returns result).cutsReport row.jobType) = db.jsonb result := Bool.and_true _
    rw [htaken]
    unfold runJob
    constructor
    · intro htaken
      obtain ⟨st₂, hcompleted, hclean₂⟩ := hsettles.returns htaken
      refine ⟨_, st₂, ⟨Or.inl rfl, rfl⟩, ?_, hclean₂⟩
      refine EStateM.tryCatch_of_ok ?_ _
      rw [EStateM.bind_of_ok hhandler, EStateM.bind_of_ok hcompleted]
      exact load_bind _ hclean₂.active
    · intro hrejected
      obtain ⟨exc, st₂, hraised, hinactive⟩ := hsettles.raises hrejected
      obtain ⟨exc', st₃, hescaped⟩ := onException_refused settings clocks.failed exc hinactive
      refine ⟨exc', st₃, (EStateM.tryCatch_of_error ?_ _).trans hescaped⟩
      rw [EStateM.bind_of_ok hhandler, EStateM.bind_of_error hraised]
  | raises exc =>
    rw [hending] at hhandler
    have htaken : ((Ending.raises exc).storable db && !(Ending.raises exc).cutsReport row.jobType) =
        (Ending.raises exc).storable db := Bool.and_true _
    rw [htaken]
    exact hraised exc hhandler
  | overruns =>
    rw [hending] at hhandler
    exact hraised timeoutError hhandler
  | interrupted pct point =>
    rw [hending] at hhandler
    by_cases hbatch : row.jobType = .batch
    · have hcut : ((Ending.interrupted pct point).storable db &&
          !(Ending.interrupted pct point).cutsReport row.jobType) = false := by
        simp [Ending.storable, Ending.cutsReport, hbatch]
      rw [decide_eq_true hbatch] at hhandler
      rw [hcut]
      obtain ⟨exc, st₂, hescaped, _⟩ := runJob_cut settings hhandler
      exact ⟨fun htaken => (Bool.false_ne_true htaken).elim, fun _ => ⟨exc, st₂, hescaped⟩⟩
    · -- without a reporter the handler has nothing to wait for but its own pauses
      have hplain : ((Ending.interrupted pct point).storable db &&
          !(Ending.interrupted pct point).cutsReport row.jobType) = true := by
        simp [Ending.storable, Ending.cutsReport, hbatch]
      rw [decide_eq_false hbatch] at hhandler
      rw [hplain]
      exact hraised timeoutError hhandler

theorem release_ok (db : Postgres) (h : Clean jobId row st) :
    ∃ st', release db st = .ok () st' ∧ Clean jobId row st' := by
  unfold release
  refine ⟨_, load_bind _ h.active, ?_⟩
  show Clean jobId row (if st.holder = some st.job.id then { st with holder := none } else st)
  split
  · exact ⟨h.job, h.active, h.added, h.row⟩
  · exact h

theorem attempt_ends {workerId : WorkerId} (clocks : Clocks) (behaviour : Behaviour)
    (hlaw : db.Lawful) (hworker : plain workerId = true) (hname : workerId.length ≤ 255)
    (htimeout : plain settings.jobTimeoutText = true)
    (hshort : settings.jobTimeoutText.length ≤ 255) (h : Clean jobId row st)
    (hstored : row.Stored db) :
    Ends jobId (behaviour.ending.storable db && !behaviour.ending.cutsReport row.jobType)
      (attempt settings db clocks workerId behaviour st) := by
  obtain ⟨st₁, hstart, hclean⟩ := start_ok hlaw hworker hname h hstored
  have hends := runJob_ends clocks behaviour hlaw htimeout hshort hclean hstored
  unfold attempt
  constructor
  · intro hstorable
    obtain ⟨row', st₂, hfinalised, hran, hclean₂⟩ := hends.returns hstorable
    obtain ⟨st₃, hreleased, hclean₃⟩ := release_ok db hclean₂
    exact ⟨row', st₃, hfinalised,
      EStateM.tryFinally_of_ok ((EStateM.bind_of_ok hstart _).trans hran) hreleased, hclean₃⟩
  · intro hrejected
    obtain ⟨exc, st₂, hraised⟩ := hends.raises hrejected
    obtain ⟨exc', st₃, hescaped, _⟩ := release_after_error
      ((EStateM.bind_of_ok hstart fun _ => runJob settings db clocks behaviour).trans hraised)
    exact ⟨exc', st₃, hescaped⟩

/-- A batch job whose report is cut is still processing when the turn has raised. -/
theorem attempt_cut {workerId : WorkerId} {behaviour : Behaviour} {pct : Int} {point : CancelPoint}
    (settings : Settings) (clocks : Clocks) (hlaw : db.Lawful) (hworker : plain workerId = true)
    (hname : workerId.length ≤ 255) (h : Clean jobId row st) (hstored : row.Stored db)
    (hbatch : row.jobType = .batch) (hcut : behaviour.ending = .interrupted pct point) :
    ∃ exc st' row', attempt settings db clocks workerId behaviour st = .error exc st' ∧
      st'.jobs.lookup jobId = some row' ∧ row'.status = row.status := by
  obtain ⟨st₁, hstart, hclean⟩ := start_ok hlaw hworker hname h hstored
  obtain ⟨st₂, row₂, hclean₂, _, hstatus₂, hhandler⟩ := runHandler_eq behaviour hclean hstored
  rw [hcut, decide_eq_true hbatch] at hhandler
  obtain ⟨exc, st₃, hescaped, hstores⟩ : ∃ exc st₃,
      runJob settings db clocks behaviour st₁ = .error exc st₃ ∧ _ := runJob_cut settings hhandler
  obtain ⟨exc', st₄, hraised, hjobs⟩ := release_after_error
    ((EStateM.bind_of_ok hstart fun _ => runJob settings db clocks behaviour).trans hescaped)
  rcases hstores with hsame | ⟨st₅, hreport, hdone⟩
  · refine ⟨exc', st₄, row₂, hraised, ?_, hstatus₂⟩
    rw [hjobs, hsame]
    exact hclean₂.row
  · obtain ⟨st₆, hreport', hclean₆⟩ := reportProgress_ok db pct hclean₂
    rw [hreport] at hreport'
    cases hreport'
    refine ⟨exc', st₄, JobQueue.reportProgress pct row₂, hraised, ?_, hstatus₂⟩
    rw [hjobs, hdone]
    exact hclean₆.row

end Py

/-! ## The guarantee -/

/-- A turn that pops a job and claims it runs the attempt on a clean session. -/
theorem turn_of_claim {db : Postgres} {clocks : Py.Clocks} {p : Process} {jobId : UUID} {row : Job}
    (settings : Settings) (workerId : WorkerId) (hpop : p.redis.dequeue.2 = some jobId)
    (hrow : p.jobs.lookup jobId = some row) (hready : row.ready clocks.began = true)
    (hattempts : row.attemptCount + 1 < 2 ^ 31)
    (hresult : ∀ result, row.result = some result → db.jsonb result = true) :
    ∃ claimed st, Clean jobId claimed st ∧ claimed.Stored db ∧ claimed.jobType = row.jobType ∧
      claimed.status = .processing ∧ ∀ behaviour,
        processOne settings db clocks workerId behaviour p =
          Attempt.close (Py.attempt settings db clocks workerId behaviour st) := by
  have hclaim : claimJob p.jobs clocks.began clocks.claimed jobId workerId settings.workerLease =
      (p.jobs.insert jobId (row.claim clocks.began clocks.claimed settings.workerLease workerId),
        some (row.claim clocks.began clocks.claimed settings.workerLease workerId)) :=
    Table.updateWhere_of_lookup hrow hready
  refine ⟨row.claim clocks.began clocks.claimed settings.workerLease workerId,
    { p with
      jobs := p.jobs.insert jobId
        (row.claim clocks.began clocks.claimed settings.workerLease workerId)
      redis := p.redis.dequeue.1, holder := some jobId
      job := Mapped.load jobId
        (row.claim clocks.began clocks.claimed settings.workerLease workerId) },
    ⟨rfl, rfl, rfl, AList.lookup_insert _⟩, ⟨hresult, hattempts⟩, rfl, rfl, ?_⟩
  intro behaviour
  have hdequeue : p.redis.dequeue = (p.redis.dequeue.1, some jobId) := by rw [← hpop]
  unfold processOne
  rw [hdequeue]
  simp only [hclaim]

/-- A timeout in the commit of a progress report ends the turn with an exception, and the row
stays processing. -/
theorem cut_report_escapes {settings : Settings} {db : Postgres} {clocks : Py.Clocks}
    {workerId : WorkerId} {behaviour : Behaviour} {p : Process} {jobId : UUID} {row : Job}
    {pct : Int} {point : CancelPoint}
    (hlaw : db.Lawful) (hworker : plain workerId = true) (hname : workerId.length ≤ 255)
    (hpop : p.redis.dequeue.2 = some jobId) (hrow : p.jobs.lookup jobId = some row)
    (hready : row.ready clocks.began = true) (hattempts : row.attemptCount + 1 < 2 ^ 31)
    (hresult : ∀ result, row.result = some result → db.jsonb result = true)
    (hbatch : row.jobType = .batch) (hcut : behaviour.ending = .interrupted pct point) :
    ∃ exc p' row', processOne settings db clocks workerId behaviour p = .error exc p' ∧
      p'.jobs.lookup jobId = some row' ∧ row'.status = .processing := by
  obtain ⟨claimed, st, hclean, hstored, htype, hstatus, hturn⟩ :=
    turn_of_claim settings workerId hpop hrow hready hattempts hresult
  obtain ⟨exc, st', row', hraised, hrow', hstatus'⟩ :=
    Py.attempt_cut settings clocks hlaw hworker hname hclean hstored (htype.trans hbatch) hcut
  refine ⟨exc, st'.toProcess, row', ?_, hrow', hstatus'.trans hstatus⟩
  rw [hturn, hraised]
  rfl

/-! ## A result with U+0000 -/

/-- PostgreSQL stores every character but U+0000. -/
def noNul (s : String) : Bool := s.toList.all fun c => c.toNat ≠ 0

mutual

def Json.noNul : Json → Bool
  | .str s => JobQueue.noNul s
  | .arr items => Json.noNulItems items
  | .obj fields => Json.noNulFields fields
  | .null | .bool _ | .int _ | .real _ => true

def Json.noNulItems : List Json → Bool
  | [] => true
  | item :: items => Json.noNul item && Json.noNulItems items

def Json.noNulFields : List (String × Json) → Bool
  | [] => true
  | (key, value) :: fields => JobQueue.noNul key && Json.noNul value && Json.noNulFields fields

end

def postgres : Postgres where
  text := noNul
  jsonb := Json.noNul
  rejection := { cls := .other, typeName := "DBAPIError", text := some "" }
  refusal := { cls := .other, typeName := "PendingRollbackError", text := some "" }

theorem lawful_postgres : postgres.Lawful where
  plain s h := by
    simp only [plain, List.all_eq_true, decide_eq_true_eq] at h
    simp only [postgres, noNul, List.all_eq_true, decide_eq_true_eq]
    intro c hc
    have := (h c hc).1
    omega
  flat fields hsmall := by
    show Json.noNulFields fields = true ↔ ∀ f ∈ fields, noNul f.1 = true ∧ _
    induction fields with
    | nil => simp [Json.noNulFields]
    | cons f fields ih =>
      obtain ⟨key, value⟩ := f
      simp only [List.forall_mem_cons] at hsmall ⊢
      simp only [Json.noNulFields, Bool.and_eq_true, ih hsmall.2]
      rcases hsmall.1 with ⟨s, _, rfl⟩ | ⟨n, _, rfl⟩
      · simp [Json.noNul, postgres]
      · simp [Json.noNul]

/-- A job that waits in Redis. -/
def waitingProcess : Process where
  jobs := (∅ : Jobs).insert 1 (newJob {} webhookRequest none 0)
  redis := (({} : Redis).enqueue 1 0).1

end JobQueue
