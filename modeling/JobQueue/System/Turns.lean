import JobQueue.System.Audit
import JobQueue.System.Sessions

/-!
# A turn of the executor as a run of the system

`processOne` is `process_one` as one program; in the system the same function is a sequence
of steps of its worker, between which the other parties act. Here the two are one: a turn
taken on the stores of a state whose worker is idle is a run of steps of that worker alone.
A turn that returns leaves the worker idle again, with the same rows, the same Redis, the
same `job_logs` and the same lease holder (`processOne_returns`). A turn that an exception
ends leaves the stores as the steps up to its last commit leave them, and the worker is gone
(`processOne_raises`).
-/

namespace JobQueue

open Relational Transition

variable {settings : Settings} {db : Postgres} {w : WorkerId}

/-! ## Steps of the worker -/

/-- The system with its table `job_logs`. -/
abbrev Audited := State × List JobLog

/-- A run by actions of one worker. -/
def WorkerRun (settings : Settings) (w : WorkerId) : Audited → Audited → Prop :=
  RunOf (auditedStep settings) fun a => ∃ b, a = .worker w b

variable {x : Audited} {st st' : Attempt} {job : Job} {m : Mapped}

theorem workerRun_step {b : WorkerAction} {store : Store} {p : Worker}
    (hstep : workerStep settings x.1.store w (x.1.workers w) b = some (store, p)) :
    ∃ x', WorkerRun settings w x x' ∧ x'.1.store = store ∧ x'.1.workers w = p ∧
      x'.2 = x.2 ++ auditRows x.1 (.worker w b) := by
  refine ⟨({ x.1 with store := store, workers := Function.update x.1.workers w p },
    x.2 ++ auditRows x.1 (.worker w b)), ?_, rfl, ?_, rfl⟩
  · refine RunOf.of_step ?_ ⟨b, rfl⟩
    simp [auditedStep, Journal.journaled, step, hstep]
  · exact Function.update_self w p x.1.workers

/-- The stores of the system are those of the turn: the same rows, the same Redis and the
same `job_logs`. -/
structure SameStores (x : Audited) (p : Process) : Prop where
  rows : ∀ j, x.1.row j = p.jobs.lookup j
  redis : x.1.store.redis = p.redis
  jobLogs : x.2 = p.jobLogs

/-- The system is where the turn is. -/
structure Agrees (w : WorkerId) (x : Audited) (p : Process) : Prop extends SameStores x p where
  holder : (x.1.workers w).holder = p.holder

/-- The same in the middle of the turn, where the worker has the instance of the turn and
nothing is added to the session. -/
structure During (w : WorkerId) (x : Audited) (st : Attempt) : Prop
    extends Agrees w x st.toProcess where
  executor : (x.1.workers w).executor = .executing st.job
  added : st.added = []

/-- The turn has returned. -/
def Rests (settings : Settings) (w : WorkerId) (x : Audited) (p : Process) : Prop :=
  ∃ x', WorkerRun settings w x x' ∧ Agrees w x' p ∧ (x'.1.workers w).executor = .idle

/-- An exception has ended the turn. -/
def Dies (settings : Settings) (w : WorkerId) (x : Audited) (p : Process) : Prop :=
  ∃ x', WorkerRun settings w x x' ∧ SameStores x' p ∧ (x'.1.workers w).executor = .crashed

theorem Rests.after {x' : Audited} {p : Process} (hrun : WorkerRun settings w x x')
    (h : Rests settings w x' p) : Rests settings w x p := by
  obtain ⟨x'', hrun', hend⟩ := h
  exact ⟨x'', hrun.trans hrun', hend⟩

theorem Dies.after {x' : Audited} {p : Process} (hrun : WorkerRun settings w x x')
    (h : Dies settings w x' p) : Dies settings w x p := by
  obtain ⟨x'', hrun', hend⟩ := h
  exact ⟨x'', hrun.trans hrun', hend⟩

/-- Wherever the worker stands, an exception that nothing catches is its end. -/
theorem dies {p : Process} (h : SameStores x p) : Dies settings w x p := by
  have hcrash : workerStep settings x.1.store w (x.1.workers w) .crash =
      some (x.1.store, { executor := .crashed }) := rfl
  obtain ⟨x', hrun, hstore, hworker, hlog⟩ := workerRun_step hcrash
  refine ⟨x', hrun, ⟨?_, ?_, ?_⟩, by rw [hworker]⟩
  · intro j
    rw [State.row, hstore]
    exact h.rows j
  · rw [hstore]
    exact h.redis
  · rw [hlog, ← h.jobLogs]
    exact List.append_nil _

theorem SameStores.of_view {p : Process} (h : SameStores x p) (hview : st.toProcess = p) :
    SameStores x st.toProcess := hview ▸ h

theorem lookup_flush_congr {jobs jobs' : Jobs} (h : ∀ j, jobs.lookup j = jobs'.lookup j)
    (m : Mapped) (j : UUID) : (jobs.flush m).lookup j = (jobs'.flush m).lookup j :=
  (Table.updateWhere_congr h).2 j

/-- The flush of an instance without changes leaves every row. -/
theorem lookup_flush_unchanged (jobs : Jobs) (h : m.current = m.loaded) (j : UUID) :
    (jobs.flush m).lookup j = jobs.lookup j := by
  have hflush : m.flush = id := by
    funext row
    simp [Mapped.flush, h]
  rw [Jobs.lookup_flush, hflush]
  split
  · rename_i hj
    rw [hj, Option.map_id, id]
  · rfl

theorem flushed_unchanged (h : m.current = m.loaded) : m.flushed = m := by
  obtain ⟨id, loaded, current⟩ := m
  replace h : current = loaded := h
  rw [h]
  rfl

/-! ## The handler -/

theorem report_run {pct : Int} {u : Unit} (hd : During w x st)
    (hbatch : st.job.current.jobType = .batch) (h : Py.reportProgress db pct st = .ok u st') :
    ∃ x', WorkerRun settings w x x' ∧ During w x' st' := by
  obtain ⟨hjobs, hlogs, hadded, hjob, hredis, hholder⟩ := Py.of_reportProgress h
  have hstep : workerStep settings x.1.store w (x.1.workers w) (.report pct) =
      some ({ x.1.store with
          jobs := x.1.store.jobs.flush
            { st.job with current := reportProgress pct st.job.current } },
        { x.1.workers w with
          executor := .executing
            { st.job with current := reportProgress pct st.job.current }.flushed }) := by
    simp only [workerStep, hd.executor, hbatch, if_true]
  obtain ⟨x', hrun, hstore, hworker, hlog⟩ := workerRun_step hstep
  refine ⟨x', hrun, ⟨⟨⟨?_, ?_, ?_⟩, ?_⟩, ?_, hadded⟩⟩
  · intro j
    rw [State.row, hstore, hjobs]
    exact lookup_flush_congr hd.rows _ j
  · rw [hstore, hredis]
    exact hd.redis
  · rw [hlog, hlogs, hd.added, ← hd.jobLogs]
    rfl
  · rw [hworker, hholder]
    exact hd.holder
  · rw [hworker, hjob]

/-- In the middle of the turn, in a batch handler. -/
def Reporting (settings : Settings) (w : WorkerId) (x : Audited) (st : Attempt) : Prop :=
  (∃ x', WorkerRun settings w x x' ∧ During w x' st) ∧ st.job.current.jobType = .batch

theorem Reporting.report {pct : Int} (hkept : Reporting settings w x st)
    (h : Py.reportProgress db pct st = .ok ⟨⟩ st') : Reporting settings w x st' := by
  obtain ⟨⟨x₁, hrun₁, hd₁⟩, hbatch⟩ := hkept
  obtain ⟨x₂, hrun₂, hd₂⟩ := report_run hd₁ hbatch h
  refine ⟨⟨x₂, hrun₁.trans hrun₂, hd₂⟩, ?_⟩
  rw [(Py.of_reportProgress h).job]
  exact hbatch

/-- The reports of a batch handler that all return. -/
theorem reports_run {reports : List Int} (hd : During w x st)
    (hbatch : st.job.current.jobType = .batch)
    (h : (forM reports (Py.reportProgress db) : Py PUnit) st = .ok ⟨⟩ st') :
    Reporting settings w x st' :=
  EStateM.of_forM_ok (I := Reporting settings w x)
    (fun _ _ _ hkept hreport => hkept.report hreport) h ⟨⟨x, .refl, hd⟩, hbatch⟩

/-- A report that raises: those before it are committed, and it leaves nothing. -/
theorem reports_raised_run {reports : List Int} {exc : Thrown} (hd : During w x st)
    (hbatch : st.job.current.jobType = .batch)
    (h : (forM reports (Py.reportProgress db) : Py PUnit) st = .error exc st') :
    ∃ x', WorkerRun settings w x x' ∧ SameStores x' st'.toProcess := by
  obtain ⟨pct, st₁, hkept, hreport⟩ := EStateM.of_forM_error (I := Reporting settings w x)
    (fun _ _ _ hkept hreport => hkept.report hreport) h ⟨⟨x, .refl, hd⟩, hbatch⟩
  obtain ⟨⟨x₁, hrun₁, hd₁⟩, _⟩ := hkept
  exact ⟨x₁, hrun₁, hd₁.toSameStores.of_view (Py.atomic_reportProgress pct st₁ exc st' hreport)⟩

/-- A report whose commit is cancelled leaves what a report leaves, or nothing. -/
theorem cancelledReport_run {pct : Int} {point : CancelPoint} {exc : Thrown} (hd : During w x st)
    (hbatch : st.job.current.jobType = .batch)
    (h : Py.cancelledReport db pct point st = .error exc st') :
    ∃ x', WorkerRun settings w x x' ∧ SameStores x' st'.toProcess ∧ st'.active = false := by
  obtain ⟨exc₁, st₁, hraised, hinactive, hstores⟩ := Py.cancelledReport_ends db pct point st
  rw [h] at hraised
  cases hraised
  rcases hstores with hsame | ⟨st₂, hreport, hdone⟩
  · exact ⟨x, .refl, hd.toSameStores.of_view hsame, hinactive⟩
  · obtain ⟨x₁, hrun₁, hd₁⟩ := report_run hd hbatch hreport
    exact ⟨x₁, hrun₁, hd₁.toSameStores.of_view hdone, hinactive⟩

/-- A handler that returns. -/
theorem runHandler_run {behaviour : Behaviour} {result : Json} (hd : During w x st)
    (hactive : st.active = true) (h : Py.runHandler db behaviour st = .ok result st') :
    ∃ x', WorkerRun settings w x x' ∧ During w x' st' := by
  rw [Py.runHandler_of_active hactive] at h
  split at h
  · rename_i hbatch
    obtain ⟨_, st₁, hreports, hending⟩ := EStateM.of_bind_ok h
    rw [Py.of_endHandler_ok hending]
    exact (reports_run hd hbatch hreports).1
  · rw [Py.of_endHandler_ok h]
    exact ⟨x, .refl, hd⟩

/-- A handler that raises: with a session that takes statements it is still in the middle of
the turn. -/
theorem runHandler_raised_run {behaviour : Behaviour} {exc : Thrown} (hd : During w x st)
    (hactive : st.active = true) (h : Py.runHandler db behaviour st = .error exc st') :
    ∃ x', WorkerRun settings w x x' ∧ SameStores x' st'.toProcess ∧
      (st'.active = true → During w x' st') := by
  rw [Py.runHandler_of_active hactive] at h
  split at h
  · rename_i hbatch
    rcases EStateM.of_bind_error h with hbroken | ⟨_, st₁, hreports, hending⟩
    · obtain ⟨x₁, hrun₁, hsame⟩ := reports_raised_run hd hbatch hbroken
      refine ⟨x₁, hrun₁, hsame, ?_⟩
      intro hactive'
      have hinactive : st'.active = false :=
        EStateM.raises_forM Py.breaks_reportProgress behaviour.reports st exc st' hbroken
      rw [hactive'] at hinactive
      cases hinactive
    · have hreporting : Reporting settings w x st₁ := reports_run hd hbatch hreports
      obtain ⟨⟨x₁, hrun₁, hd₁⟩, hbatch₁⟩ := hreporting
      rcases Py.of_endHandler_error hending with rfl | ⟨_, pct, point, hcancelled⟩
      · exact ⟨x₁, hrun₁, hd₁.toSameStores, fun _ => hd₁⟩
      · obtain ⟨x₂, hrun₂, hsame, hinactive⟩ := cancelledReport_run hd₁ hbatch₁ hcancelled
        refine ⟨x₂, hrun₁.trans hrun₂, hsame, ?_⟩
        intro hactive'
        rw [hactive'] at hinactive
        cases hinactive
  · rcases Py.of_endHandler_error h with rfl | ⟨hreporter, _⟩
    · exact ⟨x, .refl, hd.toSameStores, fun _ => hd⟩
    · cases hreporter

/-! ## The end of the attempt -/

/-- The commit of the instance's last values, with the row that tells the outcome; a job that
has failed goes to the dead-letter list. -/
theorem commit_run (hfinalising : (x.1.workers w).executor = .finalising m) :
    ∃ x', WorkerRun settings w x x' ∧
      x'.1.store = { x.1.store with
        jobs := x.1.store.jobs.flush m
        redis := if m.current.status = .failed then x.1.store.redis.deadLetter m.id
          else x.1.store.redis } ∧
      x'.1.workers w = (x.1.workers w).release m.id ∧ x'.2 = x.2 ++ [outcomeLog m] := by
  have hcommit : workerStep settings x.1.store w (x.1.workers w) .commit =
      some ({ x.1.store with jobs := x.1.store.jobs.flush m },
        if m.current.status = .failed then { x.1.workers w with executor := .deadLettering m.id }
          else (x.1.workers w).release m.id) := by
    simp only [workerStep, hfinalising]
  obtain ⟨x₁, hrun₁, hstore₁, hworker₁, hlog₁⟩ := workerRun_step hcommit
  rw [auditRows_of_logs (.outcome hfinalising)] at hlog₁
  by_cases hfailed : m.current.status = .failed
  · rw [if_pos hfailed] at hworker₁ ⊢
    have hpush : workerStep settings x₁.1.store w (x₁.1.workers w) .deadLetter =
        some ({ x₁.1.store with redis := x₁.1.store.redis.deadLetter m.id },
          (x.1.workers w).release m.id) := by
      simp only [workerStep, hworker₁]
      rfl
    obtain ⟨x₂, hrun₂, hstore₂, hworker₂, hlog₂⟩ := workerRun_step hpush
    refine ⟨x₂, hrun₁.trans hrun₂, ?_, hworker₂, ?_⟩
    · rw [hstore₂, hstore₁]
    · rw [hlog₂, hlog₁]
      exact List.append_nil _
  · rw [if_neg hfailed] at hworker₁ ⊢
    exact ⟨x₁, hrun₁, hstore₁, hworker₁, hlog₁⟩

/-- The handler has ended, and the step `b` makes the last assignments to the instance. -/
theorem finalise_run {b : WorkerAction} (hd : During w x st)
    (hstep : workerStep settings x.1.store w (x.1.workers w) b =
      some (x.1.store, { x.1.workers w with
        executor := .finalising { st.job with current := job } }))
    (hsilent : auditRows x.1 (.worker w b) = []) (hconcludes : Py.Concludes st st' job) :
    Rests settings w x st'.released := by
  obtain ⟨hjobs, hlogs, _, hjob, hredis, hholder⟩ := hconcludes
  obtain ⟨x₁, hrun₁, hstore₁, hworker₁, hlog₁⟩ := workerRun_step hstep
  have hfinalising : (x₁.1.workers w).executor = .finalising { st.job with current := job } := by
    rw [hworker₁]
  obtain ⟨x₂, hrun₂, hstore₂, hworker₂, hlog₂⟩ := commit_run hfinalising
  rw [hstore₁] at hstore₂
  rw [hworker₁] at hworker₂
  rw [hlog₁, hsilent, List.append_nil] at hlog₂
  refine ⟨x₂, hrun₁.trans hrun₂, ⟨⟨?_, ?_, ?_⟩, ?_⟩, ?_⟩
  · intro j
    rw [State.row, hstore₂, Attempt.released, hjobs]
    exact lookup_flush_congr hd.rows _ j
  · rw [hstore₂, Attempt.released, hredis, ← hd.redis]
  · rw [hlog₂, Attempt.released, hlogs, hd.added, hd.jobLogs, List.nil_append]
  · rw [hworker₂, Worker.release, Attempt.released, hholder, hjob, ← hd.holder]
    rfl
  · rw [hworker₂, Worker.release]

theorem complete_run {clock : Timestamp} {result : Json} {u : Unit} (hd : During w x st)
    (h : Py.completeJob db clock result st = .ok u st') : Rests settings w x st'.released := by
  have hfinish : workerStep settings x.1.store w (x.1.workers w) (.finish result clock) =
      some (x.1.store, { x.1.workers w with
        executor := .finalising { st.job with
          current := completeJob clock result st.job.current } }) := by
    simp only [workerStep, hd.executor]
  exact finalise_run hd hfinish rfl (Py.concludes_completeJob h)

theorem fail_run {clock : Timestamp} {exc : Thrown} {u : Unit} (hd : During w x st)
    (h : Py.onException settings db clock exc st = .ok u st') :
    Rests settings w x st'.released := by
  have hfail : workerStep settings x.1.store w (x.1.workers w) (.fail (Py.raised exc) clock) =
      some (x.1.store, { x.1.workers w with
        executor := .finalising { st.job with
          current := (Py.raised exc).apply settings clock st.job.current } }) := by
    simp only [workerStep, hd.executor]
  exact finalise_run hd hfail rfl (Py.of_onException h).2

/-! ## The `try` statements -/

/-- The handler and the completion, where one of them raises. -/
theorem body_raised_run {clocks : Py.Clocks} {behaviour : Behaviour} {exc : Thrown}
    (hd : During w x st) (hactive : st.active = true)
    (h : (do
      let result ← Py.runHandler db behaviour
      Py.completeJob db clocks.completed result
      let _ ← Py.load db : Py Unit) st = .error exc st') :
    ∃ x', WorkerRun settings w x x' ∧ SameStores x' st'.toProcess ∧
      (st'.active = true → During w x' st') := by
  rcases EStateM.of_bind_error h with hhandler | ⟨result, st₁, hhandler, hcompleting⟩
  · exact runHandler_raised_run hd hactive hhandler
  · obtain ⟨x₁, hrun₁, hd₁⟩ := runHandler_run hd hactive hhandler
    have hatomic : EStateM.Atomic Attempt.toProcess (do
        Py.completeJob db clocks.completed result
        let _ ← Py.load db : Py Unit) := by
      refine (Py.atomic_completeJob _ _).bind_of_returns ?_
      intro st₂ _ st₃ hcompleted
      exact Py.load_returns (Py.active_of_completeJob hcompleted)
    refine ⟨x₁, hrun₁, hd₁.toSameStores.of_view (hatomic st₁ exc st' hcompleting), ?_⟩
    intro hactive'
    -- the completion has broken the session
    have hbroken : EStateM.Raises Py.Broken (do
        Py.completeJob db clocks.completed result
        let _ ← Py.load db : Py Unit) :=
      (Py.breaks_completeJob _ _).bind fun _ => Py.breaks_load.bind fun _ => by
        intro st exc st' hpure
        cases hpure
    have hinactive : st'.active = false := hbroken _ _ _ hcompleting
    rw [hactive'] at hinactive
    cases hinactive

/-- The inner `try` statement. -/
theorem runJob_run {clocks : Py.Clocks} {behaviour : Behaviour} {u : Unit} (hd : During w x st)
    (hactive : st.active = true) (h : Py.runJob settings db clocks behaviour st = .ok u st') :
    Rests settings w x st'.released := by
  unfold Py.runJob at h
  rcases EStateM.of_tryCatch_ok h with hbody | ⟨exc, st₁, hraised, hclause⟩
  · obtain ⟨result, st₁, hhandler, hrest⟩ := EStateM.of_bind_ok hbody
    obtain ⟨_, st₂, hcomplete, hlog⟩ := EStateM.of_bind_ok hrest
    obtain ⟨m, st₃, hload, hend⟩ := EStateM.of_bind_ok hlog
    obtain ⟨_, rfl⟩ := Py.of_load hload
    cases hend
    obtain ⟨x₁, hrun₁, hd₁⟩ := runHandler_run hd hactive hhandler
    exact (complete_run hd₁ hcomplete).after hrun₁
  · -- a clause that returns has found a session that takes statements
    obtain ⟨x₁, hrun₁, _, hd₁⟩ := body_raised_run hd hactive hraised
    exact (fail_run (hd₁ (Py.of_onException hclause).1) hclause).after hrun₁

theorem runJob_raised_run {clocks : Py.Clocks} {behaviour : Behaviour} {exc : Thrown}
    (hd : During w x st) (hactive : st.active = true)
    (h : Py.runJob settings db clocks behaviour st = .error exc st') :
    ∃ x', WorkerRun settings w x x' ∧ SameStores x' st'.toProcess := by
  unfold Py.runJob at h
  obtain ⟨exc₁, st₁, hraised, hclause⟩ := EStateM.of_tryCatch_error h
  obtain ⟨x₁, hrun₁, hsame, _⟩ := body_raised_run hd hactive hraised
  exact ⟨x₁, hrun₁, hsame.of_view (Py.atomic_onException settings _ exc₁ st₁ exc st' hclause)⟩

/-- What the turn has when it enters the outer `try` statement. -/
structure Claimed (w : WorkerId) (x : Audited) (st : Attempt) : Prop
    extends SameStores x st.toProcess where
  executor : (x.1.workers w).executor = .claimed st.job
  holder : st.holder = some st.job.id
  fresh : st.job.current = st.job.loaded
  added : st.added = []

theorem start_run {u : Unit} (hclaimed : Claimed w x st) (h : Py.start db w st = .ok u st') :
    ∃ x', WorkerRun settings w x x' ∧ During w x' st' := by
  obtain ⟨hjobs, hlogs, hadded, hjob, hredis, hholder⟩ := (Py.of_start h).1
  have hstart : workerStep settings x.1.store w (x.1.workers w) .start =
      some (x.1.store, { x.1.workers w with
        executor := .executing st.job, holder := some st.job.id }) := by
    simp only [workerStep, hclaimed.executor]
  obtain ⟨x', hrun, hstore, hworker, hlog⟩ := workerRun_step hstart
  rw [auditRows_of_logs (.start hclaimed.executor)] at hlog
  refine ⟨x', hrun, ⟨⟨⟨?_, ?_, ?_⟩, ?_⟩, ?_, hadded⟩⟩
  · intro j
    rw [State.row, hstore, hjobs, lookup_flush_unchanged _ hclaimed.fresh]
    exact hclaimed.rows j
  · rw [hstore, hredis]
    exact hclaimed.redis
  · rw [hlog, hlogs, hclaimed.added, hclaimed.jobLogs, List.nil_append]
  · rw [hworker, hholder, hclaimed.holder]
  · rw [hworker, hjob, flushed_unchanged hclaimed.fresh]

/-- The outer `try` statement. -/
theorem attempt_run {clocks : Py.Clocks} {behaviour : Behaviour} {u : Unit}
    (hclaimed : Claimed w x st)
    (h : Py.attempt settings db clocks w behaviour st = .ok u st') :
    Rests settings w x st'.toProcess := by
  unfold Py.attempt at h
  obtain ⟨_, st₃, hbody, hrelease⟩ := EStateM.of_tryFinally_ok h
  obtain ⟨_, st₁, hbegin, hrun⟩ := EStateM.of_bind_ok hbody
  obtain ⟨x₁, hrun₁, hd⟩ := start_run hclaimed hbegin
  rw [Py.of_release hrelease]
  exact (runJob_run hd (Py.of_start hbegin).2 hrun).after hrun₁

/-- The `finally` clause keeps the tables and Redis. -/
theorem SameStores.release {result : EStateM.Result Thrown Attempt Unit}
    (h : SameStores x st.toProcess) (hrelease : Py.release db st = result)
    (hend : (∃ u, result = .ok u st') ∨ ∃ exc, result = .error exc st') :
    SameStores x st'.toProcess := by
  rcases hend with ⟨u, rfl⟩ | ⟨exc, rfl⟩
  · rw [Py.of_release hrelease]
    exact ⟨h.rows, h.redis, h.jobLogs⟩
  · exact h.of_view (Py.atomic_release st exc st' hrelease)

theorem attempt_raised_run {clocks : Py.Clocks} {behaviour : Behaviour} {exc : Thrown}
    (hclaimed : Claimed w x st)
    (h : Py.attempt settings db clocks w behaviour st = .error exc st') :
    Dies settings w x st'.toProcess := by
  unfold Py.attempt at h
  obtain ⟨st₁, hbody, hrelease⟩ := EStateM.of_tryFinally_error h
  have hstores : ∃ x', WorkerRun settings w x x' ∧ SameStores x' st₁.toProcess := by
    rcases hbody with ⟨exc₁, hraised⟩ | ⟨_, hreturned⟩
    · rcases EStateM.of_bind_error hraised with hbegin | ⟨_, st₂, hbegin, hrun⟩
      · exact ⟨x, .refl, hclaimed.toSameStores.of_view (Py.atomic_start w st exc₁ st₁ hbegin)⟩
      · obtain ⟨x₁, hrun₁, hd⟩ := start_run hclaimed hbegin
        obtain ⟨x₂, hrun₂, hsame⟩ := runJob_raised_run hd (Py.of_start hbegin).2 hrun
        exact ⟨x₂, hrun₁.trans hrun₂, hsame⟩
    · obtain ⟨_, st₂, hbegin, hrun⟩ := EStateM.of_bind_ok hreturned
      obtain ⟨x₁, hrun₁, hd⟩ := start_run hclaimed hbegin
      obtain ⟨x₂, hrun₂, hagrees, _⟩ := runJob_run hd (Py.of_start hbegin).2 hrun
      exact ⟨x₂, hrun₁.trans hrun₂, hagrees.rows, hagrees.redis, hagrees.jobLogs⟩
  obtain ⟨x₁, hrun₁, hsame⟩ := hstores
  exact (dies (hsame.release rfl hrelease)).after hrun₁

/-! ## The claim -/

/-- The claim of an id that was popped. -/
theorem claim_run {jobs : Jobs} {jobId : UUID} {began clock : Timestamp} {claimed : Jobs × Option Job}
    (hrows : ∀ j, x.1.row j = jobs.lookup j) (hpopped : (x.1.workers w).executor = .popped jobId)
    (hbegan : began ≤ x.1.store.now)
    (hclaimed : claimJob jobs began clock jobId w settings.workerLease = claimed) :
    ∃ x', WorkerRun settings w x x' ∧ (∀ j, x'.1.row j = claimed.1.lookup j) ∧
      x'.1.store.redis = x.1.store.redis ∧ x'.2 = x.2 ∧
      (x'.1.workers w).holder = (x.1.workers w).holder ∧
      (x'.1.workers w).executor =
        claimed.2.elim .idle fun job => .claimed (Mapped.load jobId job) := by
  subst hclaimed
  obtain ⟨hwinner, hrows'⟩ : (claimJob x.1.store.jobs began clock jobId w settings.workerLease).2 =
        (claimJob jobs began clock jobId w settings.workerLease).2 ∧
      ∀ j, (claimJob x.1.store.jobs began clock jobId w settings.workerLease).1.lookup j =
        (claimJob jobs began clock jobId w settings.workerLease).1.lookup j :=
    Table.updateWhere_congr hrows
  cases hwon : (claimJob jobs began clock jobId w settings.workerLease).2 with
  | none =>
    have hskip : workerStep settings x.1.store w (x.1.workers w) (.claim began clock) =
        some (x.1.store, { x.1.workers w with executor := .idle }) := by
      simp only [workerStep, hpopped, hbegan, if_true, hwinner, hwon]
    have hunchanged := Table.updateWhere_of_returning_none hwon
    obtain ⟨x', hrun, hstore, hworker, hlog⟩ := workerRun_step hskip
    refine ⟨x', hrun, ?_, by rw [hstore], ?_, by rw [hworker], by rw [hworker]; rfl⟩
    · intro j
      rw [State.row, hstore, claimJob, hunchanged]
      exact hrows j
    · rw [hlog]
      exact List.append_nil _
  | some job =>
    have hclaim : workerStep settings x.1.store w (x.1.workers w) (.claim began clock) =
        some ({ x.1.store with
            jobs := (claimJob x.1.store.jobs began clock jobId w settings.workerLease).1 },
          { x.1.workers w with executor := .claimed (Mapped.load jobId job) }) := by
      simp only [workerStep, hpopped, hbegan, if_true, hwinner, hwon]
    obtain ⟨x', hrun, hstore, hworker, hlog⟩ := workerRun_step hclaim
    refine ⟨x', hrun, ?_, by rw [hstore], ?_, by rw [hworker], by rw [hworker]; rfl⟩
    · intro j
      rw [State.row, hstore]
      exact hrows' j
    · rw [hlog]
      exact List.append_nil _

/-! ## The turn -/

variable {clocks : Py.Clocks} {behaviour : Behaviour} {p p' : Process} {redis : Redis}
  {jobId : UUID}

/-- The pop and the claim of a turn, whatever follows them. -/
theorem popped_run (hagrees : Agrees w x p) (hidle : (x.1.workers w).executor = .idle)
    (hbegan : clocks.began ≤ x.1.store.now) (hdequeue : p.redis.dequeue = (redis, some jobId))
    {claimed : Jobs × Option Job}
    (hclaimed : claimJob p.jobs clocks.began clocks.claimed jobId w settings.workerLease =
      claimed) :
    ∃ x', WorkerRun settings w x x' ∧
      SameStores x' { p with jobs := claimed.1, redis := redis } ∧
      (x'.1.workers w).holder = p.holder ∧
      (x'.1.workers w).executor =
        claimed.2.elim .idle fun job => .claimed (Mapped.load jobId job) := by
  have hpop : workerStep settings x.1.store w (x.1.workers w) .dequeue =
      some ({ x.1.store with redis := redis },
        { x.1.workers w with executor := .popped jobId }) := by
    simp only [workerStep, hidle, hagrees.redis, hdequeue]
  obtain ⟨x₁, hrun₁, hstore₁, hworker₁, hlog₁⟩ := workerRun_step hpop
  have hrows₁ : ∀ j, x₁.1.row j = p.jobs.lookup j := by
    intro j
    rw [State.row, hstore₁]
    exact hagrees.rows j
  have hbegan₁ : clocks.began ≤ x₁.1.store.now := by
    rw [hstore₁]
    exact hbegan
  obtain ⟨x₂, hrun₂, hrows₂, hredis₂, hlog₂, hholder₂, hexecutor₂⟩ :=
    claim_run hrows₁ (by rw [hworker₁]) hbegan₁ hclaimed
  refine ⟨x₂, hrun₁.trans hrun₂, ⟨hrows₂, ?_, ?_⟩, ?_, hexecutor₂⟩
  · rw [hredis₂, hstore₁]
  · rw [hlog₂, hlog₁, ← hagrees.jobLogs]
    exact List.append_nil _
  · rw [hholder₂, hworker₁]
    exact hagrees.holder

/-- A turn that returns, of a worker that rests, on the stores of the system: some steps of
the worker lead the system to where the turn ends, and the worker rests again. -/
theorem processOne_returns {popped : Bool} (hagrees : Agrees w x p)
    (hidle : (x.1.workers w).executor = .idle) (hbegan : clocks.began ≤ x.1.store.now)
    (h : processOne settings db clocks w behaviour p = .ok popped p') :
    Rests settings w x p' := by
  unfold processOne at h
  split at h
  · -- the queue is empty
    rename_i redis hdequeue
    cases h
    have hsame : redis = p.redis := by
      have hredis := Redis.dequeue_of_none (show p.redis.dequeue.2 = none by rw [hdequeue])
      rwa [hdequeue] at hredis
    refine ⟨x, .refl, ⟨⟨hagrees.rows, ?_, hagrees.jobLogs⟩, hagrees.holder⟩, hidle⟩
    rw [hsame]
    exact hagrees.redis
  · rename_i redis jobId hdequeue
    obtain ⟨claimed, hclaimed⟩ : ∃ claimed, claimJob p.jobs clocks.began clocks.claimed jobId w
      settings.workerLease = claimed := ⟨_, rfl⟩
    obtain ⟨x₁, hrun₁, hsame₁, hholder₁, hexecutor₁⟩ :=
      popped_run hagrees hidle hbegan hdequeue hclaimed
    simp only [hclaimed] at h
    cases hwon : claimed.2 with
    | none =>
      -- another worker has the job, or it is not ready
      simp only [hwon] at h
      cases h
      rw [hwon] at hexecutor₁
      have hunchanged : claimed.1 = p.jobs := by
        subst hclaimed
        exact Table.updateWhere_of_returning_none hwon
      rw [hunchanged] at hsame₁
      exact ⟨x₁, hrun₁, ⟨hsame₁, hholder₁⟩, hexecutor₁⟩
    | some job =>
      simp only [hwon] at h
      rw [hwon] at hexecutor₁
      obtain ⟨st', hattempt, rfl⟩ := Attempt.of_close_ok h
      refine (attempt_run ⟨?_, hexecutor₁, rfl, rfl, rfl⟩ hattempt).after hrun₁
      exact ⟨hsame₁.rows, hsame₁.redis, hsame₁.jobLogs⟩

/-- A turn that an exception ends. -/
theorem processOne_raises {exc : Thrown} (hagrees : Agrees w x p)
    (hidle : (x.1.workers w).executor = .idle) (hbegan : clocks.began ≤ x.1.store.now)
    (h : processOne settings db clocks w behaviour p = .error exc p') :
    Dies settings w x p' := by
  unfold processOne at h
  split at h
  · cases h
  · rename_i redis jobId hdequeue
    obtain ⟨claimed, hclaimed⟩ : ∃ claimed, claimJob p.jobs clocks.began clocks.claimed jobId w
      settings.workerLease = claimed := ⟨_, rfl⟩
    obtain ⟨x₁, hrun₁, hsame₁, _, hexecutor₁⟩ :=
      popped_run hagrees hidle hbegan hdequeue hclaimed
    simp only [hclaimed] at h
    cases hwon : claimed.2 with
    | none =>
      simp only [hwon] at h
      cases h
    | some job =>
      simp only [hwon] at h
      rw [hwon] at hexecutor₁
      obtain ⟨st', hattempt, rfl⟩ := Attempt.of_close_error h
      refine (attempt_raised_run ⟨?_, hexecutor₁, rfl, rfl, rfl⟩ hattempt).after hrun₁
      exact ⟨hsame₁.rows, hsame₁.redis, hsame₁.jobLogs⟩

end JobQueue
