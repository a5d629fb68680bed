import JobQueue.Guarantees.Leases
import JobQueue.System.Draining

/-!
# No shorter lease will do

The margin of `leases_outlive_attempts` is exact: for every pace, and every lease shorter than
the pace's margin, some run is as punctual as the pace asks and loses the lease of an attempt
whose worker lives (`shorter_lease_runs_out`). In it a worker claims its second job while its
heartbeat is about to renew its first, which it has just completed, and every step that
follows uses its deadline up.
-/

namespace JobQueue

open Relational Transition

variable {settings : Settings} {pace : Pace} {s : State} {a : Action}
  {tr : List (State × Action)} {w : WorkerId} {t last claimed : Timestamp} {jobs : Jobs}
  {q : Redis} {p : Worker}

/-- The database clock as given. -/
def State.clocked (s : State) (t : Timestamp) : State :=
  { s with store := { s.store with now := t } }

/-- A run that meets every hypothesis on the steps, in which the heartbeat of worker `w` took
its last step at `last` and the worker claimed its last job at `claimed`. -/
structure Tight (settings : Settings) (pace : Pace) (w : WorkerId) (tr : List (State × Action))
    (s : State) (last claimed : Timestamp) : Prop where
  run : Run (step settings) (State.initial 0) tr s
  atomic : Throughout (fun past s a => callAtomic past s a = true) tr
  punctual : Throughout (fun past s a => Punctual pace 0 past s a) tr
  kept : ∀ e ∈ tr, overtakes e = false
  beat : latest (beats w) (fun s => s.store.now) 0 tr = last
  claim : latest (claimsBy w) (fun s => s.store.now) 0 tr = claimed

theorem Tight.snoc {s' : State} (h : Tight settings pace w tr s last claimed)
    (hatomic : callAtomic tr s a = true) (hpunctual : Punctual pace 0 tr s a)
    (hkept : overtakes (s, a) = false) (hstep : step settings s a = some s') :
    Tight settings pace w (tr ++ [(s, a)]) s' (if beats w (s, a) then s.store.now else last)
      (if claimsBy w (s, a) then s.store.now else claimed) where
  run := h.run.snoc hstep
  atomic := h.atomic.snoc hatomic
  punctual := h.punctual.snoc hpunctual
  kept e he := by
    rcases List.mem_append.mp he with he | he
    · exact h.kept e he
    · rw [List.mem_singleton.mp he]
      exact hkept
  beat := by rw [latest_snoc, h.beat]
  claim := by rw [latest_snoc, h.claim]

/-- A step of the worker. -/
theorem Tight.work (b : WorkerAction) (jobs' : Jobs) (q' : Redis) (p' : Worker)
    (h : Tight settings pace w tr ((s.clocked t).serve w jobs q p) last claimed)
    (hpunctual : Punctual pace 0 tr ((s.clocked t).serve w jobs q p) (.worker w b))
    (hkept : overtakes ((s.clocked t).serve w jobs q p, .worker w b) = false)
    (hstep : workerStep settings { s.store with jobs := jobs, redis := q, now := t } w p b =
      some ({ s.store with jobs := jobs', redis := q', now := t }, p')) :
    Tight settings pace w (tr ++ [((s.clocked t).serve w jobs q p, .worker w b)])
      ((s.clocked t).serve w jobs' q' p')
      (if beats w ((s.clocked t).serve w jobs q p, .worker w b) then t else last)
      (if claimsBy w ((s.clocked t).serve w jobs q p, .worker w b) then t else claimed) := by
  apply h.snoc rfl hpunctual hkept
  simp [step, State.serve, State.clocked, hstep]

/-- A step of the executor other than a claim. -/
theorem Tight.execute (b : WorkerAction) (jobs' : Jobs) (q' : Redis) (p' : Worker)
    (h : Tight settings pace w tr ((s.clocked t).serve w jobs q p) last claimed)
    (hb : b = .dequeue ∨ b = .start ∨ b = .commit ∨ ∃ result clock, b = .finish result clock)
    (hstep : workerStep settings { s.store with jobs := jobs, redis := q, now := t } w p b =
      some ({ s.store with jobs := jobs', redis := q', now := t }, p')) :
    Tight settings pace w (tr ++ [((s.clocked t).serve w jobs q p, .worker w b)])
      ((s.clocked t).serve w jobs' q' p') last claimed := by
  rcases hb with rfl | rfl | rfl | ⟨result, clock, rfl⟩
  all_goals exact h.work _ jobs' q' p' trivial rfl hstep

/-- A claim that wins. -/
theorem Tight.claims {jobId : UUID} {row : Job} (clock : Timestamp)
    (h : Tight settings pace w tr ((s.clocked t).serve w jobs q p) last claimed)
    (hpopped : p.executor = .popped jobId) (hrow : jobs.lookup jobId = some row)
    (hready : row.ready t = true) (hclock : t - pace.skew ≤ clock) :
    Tight settings pace w (tr ++ [((s.clocked t).serve w jobs q p, .worker w (.claim t clock))])
      ((s.clocked t).serve w (jobs.insert jobId (row.claim t clock settings.workerLease w)) q
        { p with
          executor := .claimed (Mapped.load jobId (row.claim t clock settings.workerLease w)) })
      last t := by
  have hclaims : claimsBy w ((s.clocked t).serve w jobs q p, .worker w (.claim t clock)) = true := by
    simp [claimsBy]
  have hstep : workerStep settings { s.store with jobs := jobs, redis := q, now := t } w p
      (.claim t clock) = some
        ({ s.store with
            jobs := jobs.insert jobId (row.claim t clock settings.workerLease w), redis := q, now := t },
          { p with
            executor := .claimed (Mapped.load jobId (row.claim t clock settings.workerLease w)) }) := by
    simp [workerStep, hpopped, claimJob, Table.updateWhere_of_lookup hrow hready]
  have hnext := h.work (.claim t clock) _ _ _ hclock rfl hstep
  rw [if_pos hclaims] at hnext
  exact hnext

/-- A step of the heartbeat. -/
theorem Tight.beats (b : WorkerAction) (jobs' : Jobs) (q' : Redis) (p' : Worker)
    (h : Tight settings pace w tr ((s.clocked t).serve w jobs q p) last claimed)
    (hb : b = .beat ∨ b = .settle ∨ ∃ clock, b = .renew clock ∧ t - pace.skew ≤ clock)
    (hkept : overtakes ((s.clocked t).serve w jobs q p, .worker w b) = false)
    (hstep : workerStep settings { s.store with jobs := jobs, redis := q, now := t } w p b =
      some ({ s.store with jobs := jobs', redis := q', now := t }, p')) :
    Tight settings pace w (tr ++ [((s.clocked t).serve w jobs q p, .worker w b)])
      ((s.clocked t).serve w jobs' q' p') t claimed := by
  have hbeats : JobQueue.beats w ((s.clocked t).serve w jobs q p, .worker w b) = true := by
    rcases hb with rfl | rfl | ⟨clock, rfl, _⟩
    all_goals simp [JobQueue.beats]
  have hpunctual : Punctual pace 0 tr ((s.clocked t).serve w jobs q p) (.worker w b) := by
    rcases hb with rfl | rfl | ⟨clock, rfl, hclock⟩
    · trivial
    · trivial
    · exact hclock
  have hclaims : claimsBy w ((s.clocked t).serve w jobs q p, .worker w b) = false := by
    rcases hb with rfl | rfl | ⟨clock, rfl, _⟩
    all_goals rfl
  have hnext := h.work b jobs' q' p' hpunctual hkept hstep
  rw [if_pos hbeats, hclaims] at hnext
  exact hnext

/-- Time passes up to the deadlines of the worker, while no other one has a job in hand. -/
theorem Tight.wait (t' : Timestamp)
    (h : Tight settings pace w tr ((s.clocked t).serve w jobs q p) last claimed)
    (hle : t ≤ t') (hothers : ∀ v, v ≠ w → s.inHand v = none)
    (hbeat : t' ≤ last + pace.gap p.heartbeat)
    (hstart : ∀ m, p.executor = .claimed m → t' ≤ claimed + pace.delay) :
    Tight settings pace w (tr ++ [((s.clocked t).serve w jobs q p, .tick t')])
      ((s.clocked t').serve w jobs q p) last claimed := by
  refine h.snoc rfl ?_ rfl ?_
  · intro v m hm
    by_cases hv : v = w
    · subst hv
      refine ⟨?_, ?_⟩
      · rw [beatDue, h.beat, State.workers_serve]
        exact hbeat
      · intro hclaimed
        rw [State.workers_serve] at hclaimed
        rw [startDue, h.claim]
        exact hstart m hclaimed
    · have hnone : ((s.clocked t).serve w jobs q p).inHand v = s.inHand v := by
        simp [State.inHand, State.serve, State.clocked, hv]
      rw [hnone, hothers v hv] at hm
      cases hm
  · simp [step, State.serve, State.clocked, hle]

/-! ## Two jobs -/

/-- Two jobs are submitted. -/
def twoSubmitted : List Action :=
  [.api 0 (.submit webhookRequest none), .api 0 (.insert 1), .api 0 .commit, .api 0 .command,
    .api 1 (.submit webhookRequest none), .api 1 (.insert 2), .api 1 .commit, .api 1 .command]

/-- The API does not read the length of a lease. -/
theorem step_api (lease : Timestamp) (s : State) (c : Nat) (b : CallAction) :
    step { workerLease := lease } s (.api c b) = step {} s (.api c b) := by
  have hcall : callStep { workerLease := lease } s.store (s.calls c) b =
      callStep {} s.store (s.calls c) b := by
    cases b with
    | insert jobId =>
      cases hcall : s.calls c with
      | inserting data key began => rfl
      | _ => rfl
    | _ => rfl
  simp only [step, hcall]

/-- A state that any lease may start from: two jobs wait, and no worker has done anything. -/
theorem two_waiting (pace : Pace) (lease : Timestamp) (w : WorkerId) :
    ∃ tr s row₁ row₂, Tight { workerLease := lease } pace w tr s 0 0 ∧ s.store.now = 0 ∧
      (∀ v, s.workers v = {}) ∧ s.store.redis.dequeue.2 = some 1 ∧
      s.store.redis.dequeue.1.dequeue.2 = some 2 ∧ s.store.jobs.lookup 1 = some row₁ ∧
      s.store.jobs.lookup 2 = some row₂ ∧ row₁.ready 0 = true ∧ row₂.ready 0 = true := by
  obtain ⟨tr, s, hrun, hactions, hcheck⟩ := run_of_check (step {}) (State.initial 0) twoSubmitted
    (fun tr s => s.store.now = 0 ∧ s.store.redis.dequeue.2 = some 1 ∧
      s.store.redis.dequeue.1.dequeue.2 = some 2 ∧ (s.store.jobs.lookup 1).any (Job.ready 0) ∧
      (s.store.jobs.lookup 2).any (Job.ready 0) ∧ throughout callAtomic [] tr) (by decide +kernel)
  simp only [decide_eq_true_eq, Option.any_eq_true] at hcheck
  obtain ⟨hnow, hfirst, hsecond, ⟨row₁, hrow₁, hready₁⟩, ⟨row₂, hrow₂, hready₂⟩, hatomic⟩ := hcheck
  have hapi : ∀ e ∈ tr, ∃ c b, e.2 = .api c b := by
    apply forall_of_actions (p := fun a => ∃ c b, a = .api c b) hactions
    simp [twoSubmitted]
  have hworker : ∀ v, ∀ e ∈ tr, ∀ b, e.2 ≠ .worker v b := by
    intro v e he b hb
    obtain ⟨c, b', hapi⟩ := hapi e he
    rw [hapi] at hb
    cases hb
  refine ⟨tr, s, row₁, row₂, ⟨?_, throughout_of_check hatomic, ?_, ?_, ?_, ?_⟩, hnow,
    fun v => worker_of_not_acted (State.quiet_initial 0) hrun (hworker v), hfirst, hsecond, hrow₁,
    hrow₂, hready₁, hready₂⟩
  · apply hrun.congr
    rintro ⟨s, a⟩ he
    obtain ⟨c, b, rfl⟩ := hapi _ he
    exact step_api lease s c b
  · rintro past ⟨s, a⟩ future rfl
    obtain ⟨c, b, rfl⟩ := hapi (s, a) (by simp)
    trivial
  · rintro ⟨s, a⟩ he
    obtain ⟨c, b, rfl⟩ := hapi _ he
    rfl
  · apply latest_of_never
    rintro ⟨s, a⟩ he
    obtain ⟨c, b, rfl⟩ := hapi _ he
    rfl
  · apply latest_of_never
    rintro ⟨s, a⟩ he
    obtain ⟨c, b, rfl⟩ := hapi _ he
    rfl

/-- The worker has completed the first job and claimed the second at once, while its heartbeat
is about to renew the lease of the first. -/
theorem second_claimed (pace : Pace) (lease : Timestamp) (w : WorkerId) :
    ∃ (tr : List (State × Action)) (s : State) (jobs : Jobs) (q : Redis) (row : Job),
      Tight { workerLease := lease } pace w tr
        ((s.clocked 0).serve w jobs q ⟨.claimed (Mapped.load 2 row), none, .renewing 1⟩) 0 0 ∧
      (∀ v, s.inHand v = none) ∧ jobs.lookup 2 = some row ∧
      row.leasedUntil = some (-pace.skew + lease) := by
  obtain ⟨tr, s, row₁, row₂, htight, hnow, hworkers, hfirst, hsecond, hrow₁, hrow₂, hready₁,
    hready₂⟩ := two_waiting pace lease w
  have hstart : s = (s.clocked 0).serve w s.store.jobs s.store.redis {} := by
    rw [State.serve, ← hworkers w, ← hnow]
    simp [State.clocked]
  rw [hstart] at htight
  -- the first job: claimed, looked at by the heartbeat, and completed
  let claimed₁ := row₁.claim 0 (-pace.skew) lease w
  let m₁ : Mapped := { Mapped.load 1 claimed₁ with current := completeJob 0 .null claimed₁ }
  let jobs₁ : Jobs := s.store.jobs.insert 1 claimed₁
  let jobs₂ : Jobs := jobs₁.flush m₁
  let q₁ := s.store.redis.dequeue.1
  have h₁ := htight.execute .dequeue s.store.jobs q₁ { executor := .popped 1 } (by simp)
    (by simp [workerStep, hfirst, q₁])
  have h₂ := h₁.claims (-pace.skew) rfl hrow₁ hready₁ (by linarith)
  have h₃ := h₂.execute .start jobs₁ q₁
    { executor := .executing (Mapped.load 1 claimed₁), holder := some 1 } (by simp) rfl
  have h₄ := h₃.beats .beat jobs₁ q₁
    ⟨.executing (Mapped.load 1 claimed₁), some 1, .renewing 1⟩ (by simp) rfl rfl
  have h₅ := h₄.execute (.finish .null 0) jobs₁ q₁ ⟨.finalising m₁, some 1, .renewing 1⟩
    (by simp) rfl
  have h₆ := h₅.execute .commit jobs₂ q₁ ⟨.idle, none, .renewing 1⟩ (by simp) rfl
  -- the second job
  let q₂ := q₁.dequeue.1
  have h₇ := h₆.execute .dequeue jobs₂ q₂ ⟨.popped 2, none, .renewing 1⟩ (by simp)
    (by simp [workerStep, hsecond, q₁, q₂])
  have hsecond₂ : jobs₂.lookup 2 = some row₂ := by
    rw [Jobs.lookup_flush_ne (by simp [m₁, Mapped.load]), AList.lookup_insert_ne (by simp)]
    exact hrow₂
  have h₈ := h₇.claims (-pace.skew) rfl hsecond₂ hready₂ (by linarith)
  refine ⟨_, s, _, q₂, _, h₈, ?_, AList.lookup_insert _, rfl⟩
  intro v
  simp [State.inHand, hworkers v, Executor.inHand]

/-! ## The guarantee -/

/-- For every pace and every lease shorter than its margin, a run as punctual as the pace asks
reaches a state in which the lease of an attempt in hand has run out. -/
theorem shorter_lease_runs_out (pace : Pace) {lease : Timestamp} (hshort : lease < pace.margin) :
    ∃ tr s, Run (step { workerLease := lease }) (State.initial 0) tr s ∧
      Throughout (fun past s a => callAtomic past s a = true) tr ∧
      Throughout (fun past s a => Punctual pace 0 past s a) tr ∧
      (∀ e ∈ tr, overtakes e = false) ∧ ¬ s.LeasesLive := by
  obtain ⟨tr, s, jobs, q, row, htight, hnone, hrow, hleased⟩ := second_claimed pace lease "w"
  have hinterval := pace.interval_nonneg
  have hdelay := pace.delay_nonneg
  have hothers : ∀ v, v ≠ "w" → s.inHand v = none := fun v _ => hnone v
  let m := Mapped.load 2 row
  -- every deadline is used up
  let renewed := renewJobLease jobs (pace.delay - pace.skew) 1 "w" lease
  have h₁ := htight.wait pace.delay hdelay hothers (by simp [Pace.gap]) (fun _ _ => by simp)
  have h₂ := h₁.beats (.renew (pace.delay - pace.skew)) renewed.1 q
    ⟨.claimed m, none, .answered 1 renewed.2⟩ (Or.inr (Or.inr ⟨_, rfl, le_rfl⟩)) rfl rfl
  have h₃ := h₂.execute .start renewed.1 q ⟨.executing m, some 2, .answered 1 renewed.2⟩
    (by simp) rfl
  have h₄ := h₃.wait (2 * pace.delay) (by linarith) hothers (by simp only [Pace.gap]; linarith)
    (by simp)
  have h₅ := h₄.beats .settle renewed.1 q ⟨.executing m, some 2, .resting⟩ (by simp)
    (by cases renewed.2 <;> simp [overtakes, State.workers_serve, m, Mapped.load])
    (by simp [workerStep])
  have h₆ := h₅.wait (pace.interval + 3 * pace.delay) (by linarith) hothers
    (by simp only [Pace.gap]; linarith) (by simp)
  have h₇ := h₆.beats .beat renewed.1 q ⟨.executing m, some 2, .renewing 2⟩ (by simp) rfl rfl
  have h₈ := h₇.wait (pace.interval + 4 * pace.delay) (by linarith) hothers
    (by simp only [Pace.gap]; linarith) (by simp)
  refine ⟨_, _, h₈.run, h₈.atomic, h₈.punctual, h₈.kept, ?_⟩
  intro hlive
  have hrenewed : renewed.1.lookup 2 = some row :=
    (Table.lookup_updateWhere_ne (by simp)).trans hrow
  have hends : pace.interval + 4 * pace.delay ≤ -pace.skew + lease :=
    hlive "w" m row (-pace.skew + lease) (by rw [State.inHand, State.workers_serve]; rfl)
      hrenewed hleased
  rw [Pace.margin] at hshort
  linarith

end JobQueue
