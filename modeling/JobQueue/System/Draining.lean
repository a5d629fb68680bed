import JobQueue.Model.Handlers
import JobQueue.System.Cycles

/-!
# One worker empties the queue

The iterations of one executor's loop as runs of the whole system, without interference and
with handlers that return. An iteration pops an id, claims the job if its row is ready, takes
the steps of the job's handler, its reports and its result, and completes the job; what it
does to the rows is one function of the row and of the result (`Job.serve`). A worker that
keeps on pops every member of `jobs:pending` once.
-/

namespace JobQueue

open Relational Transition

variable {settings : Settings} {env : Ambient} {hex : UUID → String} {s s' : State}
  {w : WorkerId} {a : UUID} {row claimed : Job} {now clock lease : Timestamp} {result : Json}

/-! ## The steps of a handler -/

/-- A worker's step that is one of the handler's. -/
def Behaviour.Takes (behaviour : Behaviour) : WorkerAction → Prop
  | .report pct => pct ∈ behaviour.reports
  | .finish result _ => behaviour.ending = .returns result
  | .fail .. | .crash => False
  | .dequeue | .claim .. | .start | .commit | .deadLetter | .beat | .renew _ | .settle => True

/-- A step of a system without clients and without faults, in which `w` alone works, and as
the handlers have it. The handler of job `j` draws `hex j`. -/
def State.Serves (env : Ambient) (hex : UUID → String) (w : WorkerId) (s : State) : Action → Prop
  | .worker v b => v = w ∧ b ≠ .crash ∧ ∀ m, (s.workers w).executor = .executing m →
      (runHandler env (hex m.id) m.id m.current).Takes b
  | .maintenance _ | .tick _ => True
  | .api .. | .tamper _ => False

/-- The progress that a step reports on job `j`. -/
def reportOn (j : UUID) (e : State × Action) : Option Int :=
  match e.2 with
  | .worker w (.report pct) =>
      match (e.1.workers w).executor with
      | .executing m => if m.id = j then some pct else none
      | _ => none
  | _ => none

/-- A run by such steps, in which `made j` are the reports on job `j`. -/
def ServeRun (settings : Settings) (env : Ambient) (hex : UUID → String) (w : WorkerId)
    (made : UUID → List Int) (s s' : State) : Prop :=
  ∃ tr, Run (step settings) s tr s' ∧ (∀ e ∈ tr, e.1.Serves env hex w e.2) ∧
    ∀ j, tr.filterMap (reportOn j) = made j

namespace ServeRun

variable {made made' : UUID → List Int}

theorem refl : ServeRun settings env hex w (fun _ => []) s s :=
  ⟨[], .nil, by simp, fun _ => rfl⟩

theorem trans {t : State} (h : ServeRun settings env hex w made s t)
    (h' : ServeRun settings env hex w made' t s') :
    ServeRun settings env hex w (fun j => made j ++ made' j) s s' := by
  obtain ⟨tr, hrun, hserves, hmade⟩ := h
  obtain ⟨tr', hrun', hserves', hmade'⟩ := h'
  refine ⟨tr ++ tr', hrun.append hrun', ?_, ?_⟩
  · intro e he
    rcases List.mem_append.mp he with he | he
    · exact hserves e he
    · exact hserves' e he
  · intro j
    rw [List.filterMap_append, hmade, hmade']

theorem congr (h : ServeRun settings env hex w made s s') (heq : ∀ j, made j = made' j) :
    ServeRun settings env hex w made' s s' := by
  obtain rfl : made = made' := funext heq
  exact h

/-- The maintenance process and the passing of time report nothing. -/
theorem of_quiet (h : RunOf (step settings) (fun a => (∃ b, a = .maintenance b) ∨ ∃ t, a = .tick t)
    s s') : ServeRun settings env hex w (fun _ => []) s s' := by
  obtain ⟨tr, hrun, hquiet⟩ := h
  refine ⟨tr, hrun, ?_, ?_⟩
  · rintro ⟨s, a⟩ he
    rcases hquiet _ he with ⟨b, rfl⟩ | ⟨t, rfl⟩
    · trivial
    · trivial
  · intro j
    rw [List.filterMap_eq_nil_iff]
    rintro ⟨s, a⟩ he
    rcases hquiet _ he with ⟨b, rfl⟩ | ⟨t, rfl⟩
    · rfl
    · rfl

end ServeRun

/-- The rows, Redis and the task `p` of worker `w` as given, the rest as it is. -/
def State.serve (s : State) (w : WorkerId) (jobs : Jobs) (q : Redis) (p : Worker) : State :=
  { s with
    store := { s.store with jobs := jobs, redis := q }
    workers := Function.update s.workers w p }

theorem State.workers_serve {jobs : Jobs} {q : Redis} {p : Worker} :
    (s.serve w jobs q p).workers w = p := by
  simp [State.serve]

/-- A step of the worker from such a state to such a state. -/
theorem ServeRun.of_work {jobs : Jobs} {q : Redis} {p : Worker} (b : WorkerAction) (jobs' : Jobs)
    (q' : Redis) (p' : Worker) (hb : b ≠ .crash)
    (htakes : ∀ m, p.executor = .executing m → (runHandler env (hex m.id) m.id m.current).Takes b)
    (hstep : workerStep settings { s.store with jobs := jobs, redis := q } w p b =
      some ({ s.store with jobs := jobs', redis := q' }, p')) :
    ServeRun settings env hex w
      (fun j => (reportOn j (s.serve w jobs q p, .worker w b)).toList)
      (s.serve w jobs q p) (s.serve w jobs' q' p') := by
  have hstep' : step settings (s.serve w jobs q p) (.worker w b) =
      some (s.serve w jobs' q' p') := by
    simp [step, State.serve, hstep]
  refine ⟨[(s.serve w jobs q p, .worker w b)], Run.of_step hstep', ?_, ?_⟩
  · intro e he
    rw [List.mem_singleton.mp he]
    refine ⟨rfl, hb, ?_⟩
    intro m hexecuting
    rw [State.workers_serve] at hexecuting
    exact htakes m hexecuting
  · intro j
    show _ = (reportOn j (s.serve w jobs q p, .worker w b)).toList
    cases hreport : reportOn j (s.serve w jobs q p, .worker w b) with
    | none => rw [List.filterMap_cons_none hreport, List.filterMap_nil, Option.toList_none]
    | some pct => rw [List.filterMap_cons_some hreport, List.filterMap_nil, Option.toList_some]

/-- A step that is no report. -/
theorem ServeRun.next {made : UUID → List Int} {jobs : Jobs} {q : Redis} {p : Worker}
    (b : WorkerAction) (jobs' : Jobs) (q' : Redis) (p' : Worker)
    (hb : b ≠ .crash ∧ ∀ pct, b ≠ .report pct)
    (htakes : ∀ m, p.executor = .executing m → (runHandler env (hex m.id) m.id m.current).Takes b)
    (hstep : workerStep settings { s.store with jobs := jobs, redis := q } w p b =
      some ({ s.store with jobs := jobs', redis := q' }, p'))
    (h : ServeRun settings env hex w made (s.serve w jobs' q' p') s') :
    ServeRun settings env hex w made (s.serve w jobs q p) s' := by
  refine ((ServeRun.of_work b jobs' q' p' hb.1 htakes hstep).trans h).congr ?_
  intro j
  have hnone : reportOn j (s.serve w jobs q p, .worker w b) = none := by
    cases b with
    | report pct => exact absurd rfl (hb.2 pct)
    | _ => rfl
  rw [hnone]
  rfl

/-! ## The reports -/

/-- What reports leave of the row: the progress of the last one. -/
def Job.reported (reports : List Int) (job : Job) : Job :=
  reports.foldl (fun job pct => reportProgress pct job) job

theorem Job.reported_eq (reports : List Int) (job : Job) :
    ∃ p, job.reported reports = { job with progressPct := p } := by
  induction reports generalizing job with
  | nil => exact ⟨job.progressPct, rfl⟩
  | cons pct reports ih =>
    obtain ⟨p, hp⟩ := ih (reportProgress pct job)
    exact ⟨p, hp⟩

/-- Progress is nothing a handler reads. -/
theorem runHandler_reported (env : Ambient) (text : String) (reports : List Int) (job : Job) :
    runHandler env text a (job.reported reports) = runHandler env text a job := by
  obtain ⟨p, hp⟩ := job.reported_eq reports
  rw [hp]
  exact runHandler_congr env text a rfl rfl rfl

theorem completeJob_reported (reports : List Int) (job : Job) :
    completeJob clock result (job.reported reports) = completeJob clock result job := by
  obtain ⟨p, hp⟩ := job.reported_eq reports
  rw [hp]
  rfl

/-- The flush of an instance that was loaded from the row as it is. -/
theorem Jobs.lookup_flush_loaded {jobs : Jobs} {m : Mapped} (h : jobs.lookup m.id = some m.loaded) :
    (jobs.flush m).lookup m.id = some m.current := by
  rw [Jobs.lookup_flush, if_pos rfl, h, Option.map_some, m.flush_loaded]

theorem Jobs.lookup_flush_ne {jobs : Jobs} {m : Mapped} {j : UUID} (h : j ≠ m.id) :
    (jobs.flush m).lookup j = jobs.lookup j := by
  rw [Jobs.lookup_flush, if_neg h]

/-- The reports of a handler, one after the other, each with its commit. -/
theorem reports_serve (settings : Settings) (s : State) (w : WorkerId) (q : Redis) {jobs : Jobs}
    {p : Worker} {reports : List Int} (hexecuting : p.executor = .executing (Mapped.load a claimed))
    (hrow : jobs.lookup a = some claimed) (hbatch : reports ≠ [] → claimed.jobType = .batch)
    (hreports : ∀ pct ∈ reports, pct ∈ (runHandler env (hex a) a claimed).reports) :
    ∃ jobs', jobs'.lookup a = some (claimed.reported reports) ∧
      (∀ j, j ≠ a → jobs'.lookup j = jobs.lookup j) ∧
      ServeRun settings env hex w (fun j => if j = a then reports else []) (s.serve w jobs q p)
        (s.serve w jobs' q
          { p with executor := .executing (Mapped.load a (claimed.reported reports)) }) := by
  induction reports generalizing jobs p claimed with
  | nil =>
    have hsame : { p with executor := .executing (Mapped.load a (claimed.reported [])) } = p := by
      show { p with executor := .executing (Mapped.load a claimed) } = p
      rw [← hexecuting]
    refine ⟨jobs, hrow, fun _ _ => rfl, ?_⟩
    rw [hsame]
    exact ServeRun.refl.congr fun j => (ite_self []).symm
  | cons pct reports ih =>
    have htype : claimed.jobType = .batch := hbatch (by simp)
    let m : Mapped := { Mapped.load a claimed with current := reportProgress pct claimed }
    have hrow₁ : (jobs.flush m).lookup a = some (reportProgress pct claimed) :=
      Jobs.lookup_flush_loaded (m := m) hrow
    have hreports₁ : ∀ pct' ∈ reports,
        pct' ∈ (runHandler env (hex a) a (reportProgress pct claimed)).reports := by
      intro pct' hpct'
      have hsame : runHandler env (hex a) a (reportProgress pct claimed) =
          runHandler env (hex a) a claimed := runHandler_congr env (hex a) a rfl rfl rfl
      rw [hsame]
      exact hreports pct' (List.mem_cons_of_mem pct hpct')
    obtain ⟨jobs', hrow', hothers, hrun⟩ := ih
      (p := { p with executor := .executing (Mapped.load a (reportProgress pct claimed)) })
      rfl hrow₁ (fun _ => htype) hreports₁
    refine ⟨jobs', hrow', ?_, ?_⟩
    · intro j hj
      rw [hothers j hj]
      exact Jobs.lookup_flush_ne (m := m) hj
    · have htakes : ∀ m', p.executor = .executing m' →
          (runHandler env (hex m'.id) m'.id m'.current).Takes (.report pct) := by
        intro m' hm'
        rw [hexecuting] at hm'
        cases hm'
        exact hreports pct List.mem_cons_self
      have hstep : workerStep settings { s.store with jobs := jobs, redis := q } w p (.report pct) =
          some ({ s.store with jobs := jobs.flush m, redis := q },
            { p with executor := .executing (Mapped.load a (reportProgress pct claimed)) }) := by
        have htype' : (Mapped.load a claimed).current.jobType = .batch := htype
        simp only [workerStep, hexecuting]
        rw [if_pos htype']
        rfl
      refine ((ServeRun.of_work _ _ _ _ (by simp) htakes hstep).trans hrun).congr ?_
      intro j
      simp only [reportOn, State.workers_serve, hexecuting, Mapped.load]
      by_cases hj : j = a
      · simp [hj]
      · simp [hj, Ne.symm hj]

/-! ## One iteration -/

/-- What an iteration makes of the row of the popped id, where the handler returns `result`. -/
def Job.serve (now clock lease : Timestamp) (w : WorkerId) (result : Json) (row : Job) : Job :=
  if row.ready now then completeJob clock result (row.claim now clock lease w) else row

theorem Job.serve_of_ready (h : row.ready now = true) :
    row.serve now clock lease w result =
      completeJob clock result (row.claim now clock lease w) := if_pos h

theorem Job.serve_of_not (h : row.ready now = false) :
    row.serve now clock lease w result = row := by
  simp [Job.serve, h]

/-- A job popped a second time is skipped. -/
theorem Job.serve_serve :
    (row.serve now clock lease w result).serve now clock lease w result =
      row.serve now clock lease w result := by
  cases h : row.ready now with
  | false => rw [Job.serve_of_not h, Job.serve_of_not h]
  | true =>
    rw [Job.serve_of_ready h]
    exact Job.serve_of_not (by simp [Job.ready, completeJob])

/-- The reports of an iteration on its job. -/
def Job.reportsServed (env : Ambient) (text : String) (now clock lease : Timestamp)
    (w : WorkerId) (j : UUID) (row : Job) : List Int :=
  if row.ready now then (runHandler env text j (row.claim now clock lease w)).reports else []

theorem Job.reportsServed_of_not {text : String} (h : row.ready now = false) :
    row.reportsServed env text now clock lease w a = [] := by
  simp [Job.reportsServed, h]

/-- A job popped a second time reports nothing. -/
theorem Job.reportsServed_serve {text : String} :
    (row.serve now clock lease w result).reportsServed env text now clock lease w a = [] := by
  cases h : row.ready now with
  | false =>
    rw [Job.serve_of_not h]
    exact Job.reportsServed_of_not h
  | true =>
    rw [Job.serve_of_ready h]
    exact Job.reportsServed_of_not (by simp [Job.ready, completeJob])

/-- The handler of a claimed job, from its first step to the commit of the completion. -/
theorem handler_serve (settings : Settings) (s : State) (w : WorkerId) (q : Redis) {jobs : Jobs}
    {p : Worker} (hclaimed : p.executor = .claimed (Mapped.load a claimed))
    (hrow : jobs.lookup a = some claimed) (clock : Timestamp)
    (hreturns : (runHandler env (hex a) a claimed).ending = .returns result) :
    ∃ jobs' p', p'.executor = .idle ∧
      jobs'.lookup a = some (completeJob clock result claimed) ∧
      (∀ j, j ≠ a → jobs'.lookup j = jobs.lookup j) ∧
      ServeRun settings env hex w
        (fun j => if j = a then (runHandler env (hex a) a claimed).reports else [])
        (s.serve w jobs q p) (s.serve w jobs' q p') := by
  let reports := (runHandler env (hex a) a claimed).reports
  let last := claimed.reported reports
  have hsame : runHandler env (hex a) a last = runHandler env (hex a) a claimed :=
    runHandler_reported env (hex a) reports claimed
  have hbatch : reports ≠ [] → claimed.jobType = .batch := by
    intro hsome
    by_contra hother
    exact hsome (runHandler_reports env (hex a) a hother)
  let executing : Worker := { p with executor := .executing (Mapped.load a claimed), holder := some a }
  obtain ⟨jobs₁, hrow₁, hothers₁, hreports⟩ :=
    reports_serve settings s w q (p := executing) rfl hrow hbatch fun _ hpct => hpct
  let m : Mapped := { Mapped.load a last with current := completeJob clock result last }
  let done : Worker := { p with executor := .finalising m, holder := some a }
  have hends : ServeRun settings env hex w (fun _ => [])
      (s.serve w jobs₁ q { executing with executor := .executing (Mapped.load a last) })
      (s.serve w (jobs₁.flush m) q (done.release a)) := by
    refine .next (.finish result clock) jobs₁ q done (by simp) ?_ rfl ?_
    · intro m' hm'
      cases hm'
      show (runHandler env (hex a) a last).Takes (.finish result clock)
      rw [hsame]
      exact hreturns
    · exact .next .commit _ _ _ (by simp) (fun _ _ => trivial) rfl .refl
  refine ⟨jobs₁.flush m, done.release a, rfl, ?_, ?_, ?_⟩
  · rw [← completeJob_reported reports claimed]
    exact Jobs.lookup_flush_loaded (m := m) hrow₁
  · intro j hj
    rw [← hothers₁ j hj]
    exact Jobs.lookup_flush_ne (m := m) hj
  · refine .next .start jobs q executing (by simp) (fun _ _ => trivial) ?_ ?_
    · simp only [workerStep, hclaimed]
      rfl
    · exact (hreports.trans hends).congr fun j => List.append_nil _

/-- The iteration for a popped id: a job that cannot be claimed is skipped, one that can is
completed with the result of its handler. -/
theorem iteration_run (settings : Settings) (s : State) (w : WorkerId) (jobs : Jobs) (q : Redis)
    {p : Worker} (hpopped : p.executor = .popped a) (clock : Timestamp)
    (hreturns : ∀ row, jobs.lookup a = some row → row.ready s.store.now = true →
      (runHandler env (hex a) a (row.claim s.store.now clock settings.workerLease w)).ending =
        .returns result) :
    ∃ jobs' p', p'.executor = .idle ∧
      (∀ j, jobs'.lookup j = if j = a then
        (jobs.lookup a).map (Job.serve s.store.now clock settings.workerLease w result)
        else jobs.lookup j) ∧
      ServeRun settings env hex w (fun j => if j = a then
          (jobs.lookup a).elim []
            (Job.reportsServed env (hex a) s.store.now clock settings.workerLease w a)
          else [])
        (s.serve w jobs q p) (s.serve w jobs' q p') := by
  rcases Table.updateWhere_cases jobs a (Job.ready s.store.now)
    (Job.claim s.store.now clock settings.workerLease w) with
    ⟨row, hrow, hready, hclaim⟩ | ⟨hnot, hclaim⟩
  · -- the claim wins, and the handler follows
    let claimed := row.claim s.store.now clock settings.workerLease w
    obtain ⟨jobs', p', hidle, hrow', hothers, hrun⟩ :=
      handler_serve settings s w q (p := { p with executor := .claimed (Mapped.load a claimed) })
        rfl (AList.lookup_insert jobs) clock (hreturns row hrow hready)
    refine ⟨jobs', p', hidle, ?_, ?_⟩
    · intro j
      split
      · rename_i hj
        rw [hj, hrow', hrow, Option.map_some, Job.serve_of_ready hready]
      · rename_i hj
        rw [hothers j hj, AList.lookup_insert_ne hj]
    · have hreports : (runHandler env (hex a) a claimed).reports =
          row.reportsServed env (hex a) s.store.now clock settings.workerLease w a :=
        (if_pos hready).symm
      rw [hrow, Option.elim_some, ← hreports]
      refine .next (.claim s.store.now clock) _ q _ (by simp) (fun _ _ => trivial) ?_ hrun
      simp [workerStep, hpopped, claimJob, hclaim, claimed]
  · refine ⟨jobs, { p with executor := .idle }, rfl, ?_, ?_⟩
    · intro j
      split
      · rename_i hj
        subst hj
        cases hrow : jobs.lookup j with
        | none => rfl
        | some row => rw [Option.map_some, Job.serve_of_not (hnot row hrow)]
      · rfl
    · have hnone : (jobs.lookup a).elim []
          (Job.reportsServed env (hex a) s.store.now clock settings.workerLease w a) = [] := by
        cases hrow : jobs.lookup a with
        | none => rfl
        | some row => exact Job.reportsServed_of_not (hnot row hrow)
      rw [hnone]
      refine .next (.claim s.store.now clock) jobs q { p with executor := .idle } (by simp)
        (fun _ _ => trivial) ?_ ?_
      · simp [workerStep, hpopped, claimJob, hclaim]
      · exact ServeRun.refl.congr fun j => (ite_self []).symm

/-! ## The whole queue -/

/-- The members of `jobs:pending`, in the order in which they are popped, are worked off. -/
theorem drain_run (settings : Settings) (s : State) (w : WorkerId) (jobs : Jobs) {q : Redis}
    {p : Worker} {ids : List UUID} (hidle : p.executor = .idle)
    (hpops : SortedSet.Pops q.pending ids) (clock : Timestamp) {result : UUID → Json}
    (hreturns : ∀ j row, jobs.lookup j = some row → row.ready s.store.now = true →
      (runHandler env (hex j) j (row.claim s.store.now clock settings.workerLease w)).ending =
        .returns (result j)) :
    ∃ jobs' q' p', p'.executor = .idle ∧ (∀ j, j ∉ q'.pending) ∧
      (∀ j, jobs'.lookup j = if j ∈ ids then
        (jobs.lookup j).map (Job.serve s.store.now clock settings.workerLease w (result j))
        else jobs.lookup j) ∧
      ServeRun settings env hex w (fun j => if j ∈ ids then
          (jobs.lookup j).elim []
            (Job.reportsServed env (hex j) s.store.now clock settings.workerLease w j)
          else [])
        (s.serve w jobs q p) (s.serve w jobs' q' p') := by
  generalize hpending : q.pending = z at hpops
  induction hpops generalizing jobs q p with
  | @nil z hnone =>
    subst hpending
    exact ⟨jobs, q, p, hidle, Redis.dequeue_none_iff.mp hnone, by simp,
      ServeRun.refl.congr (by simp)⟩
  | @cons z id ids hsome _ ih =>
    subst hpending
    obtain ⟨jobs₁, p₁, hidle₁, hrows₁, hrun₁⟩ :=
      iteration_run settings s w jobs q.dequeue.1 (p := { p with executor := .popped id }) rfl
        clock (hreturns id)
    have hreturns₁ : ∀ j row, jobs₁.lookup j = some row → row.ready s.store.now = true →
        (runHandler env (hex j) j (row.claim s.store.now clock settings.workerLease w)).ending =
          .returns (result j) := by
      intro j row hrow hready
      rw [hrows₁] at hrow
      split at hrow
      · -- the row of the popped id is ready no more, or as it was
        rename_i hj
        subst hj
        obtain ⟨row₀, hrow₀, hserve⟩ := Option.map_eq_some_iff.mp hrow
        cases hready₀ : row₀.ready s.store.now with
        | true =>
          rw [Job.serve_of_ready hready₀] at hserve
          subst hserve
          simp [Job.ready, completeJob] at hready
        | false =>
          rw [Job.serve_of_not hready₀] at hserve
          subst hserve
          exact hreturns j row₀ hrow₀ hready
      · exact hreturns j row hrow hready
    obtain ⟨jobs', q', p', hidle', hempty, hrows, hrun⟩ :=
      ih jobs₁ (q := q.dequeue.1) hidle₁ hreturns₁ rfl
    refine ⟨jobs', q', p', hidle', hempty, ?_, ?_⟩
    · intro j
      rw [hrows, hrows₁]
      by_cases hid : j = id
      · subst hid
        rw [if_pos rfl, if_pos List.mem_cons_self, Option.map_map]
        split
        · congr 1
          funext row
          exact Job.serve_serve
        · rfl
      · simp [hid]
    · refine .next .dequeue _ _ _ (by simp) (fun _ _ => trivial) ?_ ((hrun₁.trans hrun).congr ?_)
      · have hdequeue : q.dequeue.2 = some id := hsome
        simp [workerStep, hidle, hdequeue]
      · intro j
        by_cases hid : j = id
        · -- popped once more, the job reports nothing
          subst hid
          rw [if_pos rfl, if_pos List.mem_cons_self, hrows₁, if_pos rfl]
          cases hrow : jobs.lookup j with
          | none => simp
          | some row => simp [Job.reportsServed_serve]
        · simp [hid, hrows₁]

end JobQueue
