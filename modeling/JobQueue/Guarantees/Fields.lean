import JobQueue.System.Lifecycle

/-!
# The columns of a row and its status

Nine operations set the columns that go with a status by hand, and three of them return a
job to pending: `apply_failure`, `manual_retry` and the reaper. The first two clear
`started_at`, the reaper forgets to (`reaped_row_keeps_started_at`). Under atomic operations
a row has the columns of its status exactly unless it is pending since a reset by the reaper
(`columns_agree_iff`).
-/

namespace JobQueue

open Relational Transition

variable {settings : Settings} {s s' s₀ : State} {a : Action} {tr : List (State × Action)}
  {j : UUID} {row row' : Job} {now : Timestamp}

/-! ## The columns of a status -/

/-- The columns of an attempt are null. -/
structure Job.Vacant (job : Job) : Prop where
  workerId : job.workerId = none
  leasedUntil : job.leasedUntil = none
  completedAt : job.completedAt = none
  result : job.result = none

structure Job.Processing (job : Job) : Prop where
  workerId : job.workerId ≠ none
  leasedUntil : job.leasedUntil ≠ none
  startedAt : job.startedAt ≠ none
  completedAt : job.completedAt = none
  result : job.result = none
  attemptCount : 1 ≤ job.attemptCount

structure Job.Completed (job : Job) : Prop where
  result : job.result ≠ none
  completedAt : job.completedAt ≠ none
  errorMessage : job.errorMessage = none
  nextRunAt : job.nextRunAt = none
  leasedUntil : job.leasedUntil = none
  progressPct : job.progressPct = 100

structure Job.Failed (job : Job) : Prop where
  errorMessage : job.errorMessage ≠ none
  completedAt : job.completedAt ≠ none
  result : job.result = none
  workerId : job.workerId = none
  leasedUntil : job.leasedUntil = none
  nextRunAt : job.nextRunAt = none

structure Job.Cancelled (job : Job) : Prop where
  workerId : job.workerId = none
  leasedUntil : job.leasedUntil = none
  nextRunAt : job.nextRunAt = none

structure Job.Scheduled (job : Job) : Prop where
  scheduledAt : job.scheduledAt ≠ none
  nextRunAt : job.nextRunAt = job.scheduledAt
  attemptCount : job.attemptCount = 0

/-- The columns agree with the status. -/
structure Job.Agrees (job : Job) : Prop where
  pending : job.status = .pending → job.Vacant ∧ job.startedAt = none
  processing : job.status = .processing → job.Processing
  completed : job.status = .completed → job.Completed
  failed : job.status = .failed → job.Failed
  cancelled : job.status = .cancelled → job.Cancelled
  scheduled : job.status = .scheduled → job.Scheduled

/-! ## What every operation keeps -/

/-- All that `Job.Agrees` says, but for `started_at` of a pending row, and what it says of a
pending row of a scheduled one too. -/
structure Job.Coherent (job : Job) : Prop where
  waiting : job.status = .pending ∨ job.status = .scheduled → job.Vacant
  unstarted : job.status = .scheduled → job.startedAt = none
  agrees : job.status ≠ .pending → job.Agrees

theorem Job.Coherent.of_pending (hstatus : row.status = .pending) (h : row.Vacant) :
    row.Coherent :=
  ⟨fun _ => h, by simp [hstatus], fun hne => absurd hstatus hne⟩

theorem Job.Coherent.of_processing (hstatus : row.status = .processing) (h : row.Processing) :
    row.Coherent := by
  refine ⟨by simp [hstatus], by simp [hstatus], fun _ => ⟨?_, fun _ => h, ?_, ?_, ?_, ?_⟩⟩ <;>
    simp [hstatus]

theorem Job.Coherent.of_completed (hstatus : row.status = .completed) (h : row.Completed) :
    row.Coherent := by
  refine ⟨by simp [hstatus], by simp [hstatus], fun _ => ⟨?_, ?_, fun _ => h, ?_, ?_, ?_⟩⟩ <;>
    simp [hstatus]

theorem Job.Coherent.of_failed (hstatus : row.status = .failed) (h : row.Failed) :
    row.Coherent := by
  refine ⟨by simp [hstatus], by simp [hstatus], fun _ => ⟨?_, ?_, ?_, fun _ => h, ?_, ?_⟩⟩ <;>
    simp [hstatus]

theorem Job.Coherent.of_cancelled (hstatus : row.status = .cancelled) (h : row.Cancelled) :
    row.Coherent := by
  refine ⟨by simp [hstatus], by simp [hstatus], fun _ => ⟨?_, ?_, ?_, ?_, fun _ => h, ?_⟩⟩ <;>
    simp [hstatus]

/-- A coherent row agrees with its status unless it is pending with a start. -/
theorem Job.Coherent.agrees_iff (h : row.Coherent) :
    row.Agrees ↔ (row.status = .pending → row.startedAt = none) := by
  constructor
  · intro hagrees hstatus
    exact (hagrees.pending hstatus).2
  · intro hstarted
    by_cases hstatus : row.status = .pending
    · refine ⟨fun _ => ⟨h.waiting (Or.inl hstatus), hstarted hstatus⟩, ?_, ?_, ?_, ?_, ?_⟩ <;>
        simp [hstatus]
    · exact h.agrees hstatus

theorem coherent_new (data : JobCreate) (key : Option String) (createdAt : Timestamp) :
    (newJob settings data key createdAt).Coherent := by
  cases hat : data.scheduledAt with
  | none => exact .of_pending (by simp [newJob, hat]) ⟨rfl, rfl, rfl, rfl⟩
  | some runAt =>
    have hstatus : (newJob settings data key createdAt).status = .scheduled := by
      simp [newJob, hat]
    refine ⟨fun _ => ⟨rfl, rfl, rfl, rfl⟩, fun _ => rfl, fun _ => ⟨?_, ?_, ?_, ?_, ?_, ?_⟩⟩
    all_goals simp only [hstatus, reduceCtorEq, false_implies]
    intro _
    exact ⟨by simp [newJob, hat], rfl, rfl⟩

/-- No status asks anything of the key. -/
theorem Job.Coherent.withoutKey (h : row.Coherent) :
    Job.Coherent { row with idempotencyKey := none } where
  waiting hstatus := by
    have hvacant := h.waiting hstatus
    exact ⟨hvacant.workerId, hvacant.leasedUntil, hvacant.completedAt, hvacant.result⟩
  unstarted := h.unstarted
  agrees hne := by
    have hagrees := h.agrees hne
    refine ⟨fun hstatus => absurd hstatus hne, ?_, ?_, ?_, ?_, ?_⟩
    · intro hstatus
      have hp := hagrees.processing hstatus
      exact ⟨hp.workerId, hp.leasedUntil, hp.startedAt, hp.completedAt, hp.result,
        hp.attemptCount⟩
    · intro hstatus
      have hc := hagrees.completed hstatus
      exact ⟨hc.result, hc.completedAt, hc.errorMessage, hc.nextRunAt, hc.leasedUntil,
        hc.progressPct⟩
    · intro hstatus
      have hf := hagrees.failed hstatus
      exact ⟨hf.errorMessage, hf.completedAt, hf.result, hf.workerId, hf.leasedUntil,
        hf.nextRunAt⟩
    · intro hstatus
      have hc := hagrees.cancelled hstatus
      exact ⟨hc.workerId, hc.leasedUntil, hc.nextRunAt⟩
    · intro hstatus
      have hs := hagrees.scheduled hstatus
      exact ⟨hs.scheduledAt, hs.nextRunAt, hs.attemptCount⟩

/-- Each operation, in each state of the row it accepts, leaves a coherent row. -/
theorem coherent_life {event : LifeEvent} (h : row.Coherent)
    (hlife : LifeStep settings event row row') : row'.Coherent := by
  cases hlife with
  | claim hready =>
    have hvacant := h.waiting (Or.inl (Job.ready_iff.mp hready).1)
    refine .of_processing rfl ⟨by simp [Job.claim], by simp [Job.claim], by simp [Job.claim],
      hvacant.completedAt, hvacant.result, ?_⟩
    exact Nat.le_add_left 1 _
  | renew hheld =>
    have hstatus := (heldBy_iff.mp hheld).1
    have hbefore := (h.agrees (by simp [hstatus])).processing hstatus
    exact .of_processing hstatus ⟨hbefore.workerId, by simp, hbefore.startedAt,
      hbefore.completedAt, hbefore.result, hbefore.attemptCount⟩
  | report hheld =>
    have hstatus := (heldBy_iff.mp hheld).1
    have hbefore := (h.agrees (by simp [hstatus])).processing hstatus
    exact .of_processing hstatus ⟨hbefore.workerId, hbefore.leasedUntil, hbefore.startedAt,
      hbefore.completedAt, hbefore.result, hbefore.attemptCount⟩
  | complete hheld =>
    exact .of_completed rfl ⟨by simp [completeJob], by simp [completeJob], rfl, rfl, rfl, rfl⟩
  | @fail w clock raised _ hheld =>
    have hstatus := (heldBy_iff.mp hheld).1
    have hbefore := (h.agrees (by simp [hstatus])).processing hstatus
    unfold Raised.apply applyFailure
    split
    · exact .of_pending rfl ⟨rfl, rfl, rfl, rfl⟩
    · exact .of_failed rfl ⟨by simp [failPermanently, recordFailure], by simp [failPermanently],
        rfl, rfl, rfl, rfl⟩
  | cancel => exact .of_cancelled rfl ⟨rfl, rfl, rfl⟩
  | retry hok =>
    have hstatus : row.status = .failed := by simpa [Job.retryable] using hok
    have hbefore := (h.agrees (by simp [hstatus])).failed hstatus
    exact .of_pending rfl ⟨rfl, rfl, rfl, hbefore.result⟩
  | promote hdue =>
    have hvacant := h.waiting (Or.inr (Job.dueAt_iff.mp hdue).1)
    exact .of_pending rfl ⟨hvacant.workerId, hvacant.leasedUntil, hvacant.completedAt,
      hvacant.result⟩
  | reap hexpired =>
    have hstatus := (Job.expired_iff.mp hexpired).1
    have hbefore := (h.agrees (by simp [hstatus])).processing hstatus
    exact .of_pending rfl ⟨rfl, rfl, hbefore.completedAt, hbefore.result⟩
  | cleanup => exact h.withoutKey

/-! ## The reset of the reaper -/

/-- The reaper has reset job `j`, and nobody has claimed it since. -/
def resetSince (j : UUID) (tr : List (State × Action)) : Bool :=
  (tr.rtakeWhile fun e => !claims j e).any (resets j)

theorem resetSince_claim {e : State × Action} (h : claims j e = true) :
    resetSince j (tr ++ [e]) = false := by
  rw [resetSince, List.rtakeWhile_concat_neg _ _ _ (by simp [h])]
  rfl

theorem resetSince_other {e : State × Action} (h : claims j e = false) :
    resetSince j (tr ++ [e]) = (resetSince j tr || resets j e) := by
  rw [resetSince, List.rtakeWhile_concat_pos _ _ _ (by simp [h]), List.any_append]
  simp [resetSince]

/-! ## The invariant -/

/-- A pending row has a start exactly if the reaper has reset it, and the other rows are not
reset. -/
structure StartInv (tr : List (State × Action)) (j : UUID) (row : Job) : Prop where
  pending : row.status = .pending → (row.startedAt = none ↔ resetSince j tr = false)
  other : row.status ≠ .pending → row.status ≠ .cancelled → resetSince j tr = false

structure FieldsInv (tr : List (State × Action)) (s : State) : Prop where
  absent : ∀ j, s.row j = none → resetSince j tr = false
  coherent : ∀ j row, s.row j = some row → row.Coherent
  start : ∀ j row, s.row j = some row → StartInv tr j row

/-- What an event other than a claim or a reset makes of the start of a row. -/
theorem startInv_life {event : LifeEvent} (hcoherent : row.Coherent) (h : StartInv tr j row)
    (hlife : LifeStep settings event row row') (hclaim : event ≠ .claim) (hreap : event ≠ .reap) :
    StartInv tr j row' := by
  cases hlife with
  | claim => exact absurd rfl hclaim
  | reap => exact absurd rfl hreap
  | renew | report | cleanup => exact ⟨h.pending, h.other⟩
  | complete hheld =>
    have hstatus := (heldBy_iff.mp hheld).1
    exact ⟨by simp [completeJob], fun _ _ => h.other (by simp [hstatus]) (by simp [hstatus])⟩
  | @fail w clock raised _ hheld =>
    have hstatus := (heldBy_iff.mp hheld).1
    have hno := h.other (by simp [hstatus]) (by simp [hstatus])
    refine ⟨?_, fun _ _ => hno⟩
    intro hpending
    have hnone : (Raised.apply settings clock raised row).startedAt = none := by
      unfold Raised.apply applyFailure at hpending ⊢
      by_cases hretries : retries raised.permanent row = true
      · rw [if_pos hretries]
        rfl
      · rw [if_neg hretries] at hpending
        cases hpending
    simp [hno, hnone]
  | cancel => exact ⟨by simp [cancelJob], by simp [cancelJob]⟩
  | retry hok =>
    have hstatus : row.status = .failed := by simpa [Job.retryable] using hok
    have hno := h.other (by simp [hstatus]) (by simp [hstatus])
    exact ⟨fun _ => by simp [manualRetry, hno], fun _ _ => hno⟩
  | promote hdue =>
    have hstatus := (Job.dueAt_iff.mp hdue).1
    have hno := h.other (by simp [hstatus]) (by simp [hstatus])
    exact ⟨fun _ => by simp [Job.promote, hno, hcoherent.unstarted hstatus], fun _ _ => hno⟩

/-- Without a row nothing happens to a job. -/
theorem resetSince_of_none (hstep : step settings s a = some s') (hrow : s.row j = none)
    (h : resetSince j tr = false) : resetSince j (tr ++ [(s, a)]) = false := by
  have hclaims : claims j (s, a) = false := by
    by_contra hclaims
    obtain ⟨_, _, _, row, _, _, hsome, _⟩ := claims_iff.mp (Bool.eq_true_of_not_eq_false hclaims)
    rw [hrow] at hsome
    cases hsome
  have hresets : resets j (s, a) = false := by
    by_contra hresets
    obtain ⟨_, row, _, hsome, _⟩ := resets_row hstep (Bool.eq_true_of_not_eq_false hresets)
    rw [hrow] at hsome
    cases hsome
  rw [resetSince_other hclaims, h, hresets]
  rfl

/-- What a step makes of a row and of its start. -/
theorem fields_step (hcoherent : row.Coherent) (hstart : StartInv tr j row)
    (hshaped : s.Shaped settings) (howned : s.OwnedInv) (hatomic : atomicStep s a = true)
    (hstep : step settings s a = some s') (hrow : s.row j = some row)
    (hrow' : s'.row j = some row') : row'.Coherent ∧ StartInv (tr ++ [(s, a)]) j row' := by
  by_cases hclaims : claims j (s, a) = true
  · obtain ⟨w, began, clock, row₁, _, hrow₁, hready, _, hclaimed, _⟩ := claims_row hstep hclaims
    rw [hrow] at hrow₁
    cases hrow₁
    rw [hrow'] at hclaimed
    cases hclaimed
    have hlife : LifeStep settings .claim row
        (row.claim began clock settings.workerLease w) := .claim hready
    refine ⟨coherent_life hcoherent hlife, ?_, ?_⟩
    · intro hpending
      cases hpending
    · intro _ _
      exact resetSince_claim hclaims
  have hclaims : claims j (s, a) = false := Bool.eq_false_of_not_eq_true hclaims
  by_cases hresets : resets j (s, a) = true
  · obtain ⟨began, row₁, _, hrow₁, hexpired, hreaped⟩ := resets_row hstep hresets
    rw [hrow] at hrow₁
    cases hrow₁
    rw [hrow'] at hreaped
    cases hreaped
    have hstatus := (Job.expired_iff.mp hexpired).1
    have hstarted := ((hcoherent.agrees (by simp [hstatus])).processing hstatus).startedAt
    have hlife : LifeStep settings .reap row row.reap := .reap hexpired
    refine ⟨coherent_life hcoherent hlife, ?_, ?_⟩
    · intro _
      rw [resetSince_other hclaims, hresets]
      simpa [Job.reap] using hstarted
    · intro hne
      exact absurd rfl hne
  have hresets : resets j (s, a) = false := Bool.eq_false_of_not_eq_true hresets
  have hsame : resetSince j (tr ++ [(s, a)]) = resetSince j tr := by
    rw [resetSince_other hclaims, hresets, Bool.or_false]
  have hkept : ∀ job, StartInv tr j job → StartInv (tr ++ [(s, a)]) j job := fun job hjob =>
    ⟨fun hp => hsame ▸ hjob.pending hp, fun hne hc => hsame ▸ hjob.other hne hc⟩
  rcases life_step howned hatomic hshaped hstep hrow hrow' with rfl | ⟨event, hlife, hseen⟩
  · exact ⟨hcoherent, hkept _ hstart⟩
  · refine ⟨coherent_life hcoherent hlife, hkept _ ?_⟩
    refine startInv_life hcoherent hstart hlife ?_ ?_
    · rintro rfl
      rw [LifeEvent.seen, hclaims] at hseen
      cases hseen
    · rintro rfl
      rw [LifeEvent.seen, hresets] at hseen
      cases hseen

theorem fieldsInv_step (h : FieldsInv tr s) (hshaped : s.Shaped settings) (howned : s.OwnedInv)
    (hatomic : atomicStep s a = true) (hstep : step settings s a = some s') :
    FieldsInv (tr ++ [(s, a)]) s' := by
  have hrows : ∀ j row', s'.row j = some row' →
      row'.Coherent ∧ StartInv (tr ++ [(s, a)]) j row' := by
    intro j row' hrow'
    cases hrow : s.row j with
    | none =>
      have hno := resetSince_of_none hstep hrow (h.absent j hrow)
      obtain ⟨_, _, data, key, t, rfl⟩ := new_row hshaped hstep hrow hrow'
      refine ⟨coherent_new data key t, ?_, fun _ _ => hno⟩
      intro _
      rw [hno]
      simp [newJob]
    | some row =>
      exact fields_step (h.coherent j row hrow) (h.start j row hrow) hshaped howned hatomic hstep
        hrow hrow'
  refine ⟨?_, fun j row' hrow' => (hrows j row' hrow').1, fun j row' hrow' => (hrows j row' hrow').2⟩
  intro j hrow'
  cases hrow : s.row j with
  | none => exact resetSince_of_none hstep hrow (h.absent j hrow)
  | some row =>
    obtain ⟨row₁, hrow₁, _⟩ := row_step hstep hrow
    rw [hrow'] at hrow₁
    cases hrow₁

theorem fieldsInv_of_run (hrun : Run (step settings) (State.initial now) tr s)
    (hatomic : ∀ e ∈ tr, atomicStep e.1 e.2 = true) : FieldsInv tr s := by
  have hquiet := State.quiet_initial now
  refine hrun.induct (C := fun s a => atomicStep s a = true) hatomic ⟨fun _ _ => rfl, ?_, ?_⟩ ?_
  · intro j row hrow
    simp [State.row, State.initial] at hrow
  · intro j row hrow
    simp [State.row, State.initial] at hrow
  · intro tr s a s' hrun hpast h ha hstep
    exact fieldsInv_step h (shaped_of_run hquiet hrun) (ownedInv_of_run hquiet hrun hpast) ha hstep

/-! ## The guarantee -/

/-- In every run of atomic operations the columns of a row agree with its status if and only
if it is not a pending row that the reaper has reset since its last claim. -/
theorem columns_agree_iff (hrun : Run (step settings) (State.initial now) tr s)
    (hatomic : ∀ e ∈ tr, atomicStep e.1 e.2 = true) (hrow : s.row j = some row) :
    row.Agrees ↔ ¬ (row.status = .pending ∧ resetSince j tr = true) := by
  have hinv := fieldsInv_of_run hrun hatomic
  rw [(hinv.coherent j row hrow).agrees_iff, not_and]
  constructor
  · intro hstarted hpending hreset
    have hno := ((hinv.start j row hrow).pending hpending).mp (hstarted hpending)
    rw [hreset] at hno
    cases hno
  · intro hno hpending
    exact ((hinv.start j row hrow).pending hpending).mpr (by simpa using hno hpending)

/-- The job is reset, claimed again, and fails with an attempt left: the pending row agrees. -/
theorem columns_agree_iff_retried :
    ∃ tr s row, Run (step {}) (State.initial 0) tr s ∧ s.row 1 = some row ∧
      row.status = .pending ∧ row.Agrees := by
  obtain ⟨tr, s, hrun, _, hcheck⟩ := run_of_check (step {}) (State.initial 0)
    [.api 0 (.submit webhookRequest none), .api 0 (.insert 1), .api 0 .commit, .api 0 .command,
      .worker "w1" .dequeue, .worker "w1" (.claim 0 0), .worker "w1" .crash, .tick 61000000,
      .maintenance (.reaperSelect 10 [1]), .maintenance (.reaperUpdate 61000000),
      .maintenance (.feederSelect 10 [1]), .maintenance .feederPush, .worker "w2" .dequeue,
      .worker "w2" (.claim 61000000 61000000), .worker "w2" .start,
      .worker "w2" (.fail .timeout 61000000), .worker "w2" .commit]
    (fun tr s => (tr.all fun e => atomicStep e.1 e.2) ∧ resetSince 1 tr = false ∧
      (s.row 1).any fun row => row.status = .pending) (by decide +kernel)
  simp only [decide_eq_true_eq, List.all_eq_true, Option.any_eq_true] at hcheck
  obtain ⟨hatomic, hreset, row, hrow, hstatus⟩ := hcheck
  exact ⟨tr, s, row, hrun, hrow, hstatus,
    (columns_agree_iff hrun hatomic hrow).mpr (by simp [hreset])⟩

/-- The reaper returns the job of a crashed worker to pending and leaves its start. -/
theorem reaped_row_keeps_started_at :
    ∃ tr s row, Run (step {}) (State.initial 0) tr s ∧
      (∀ e ∈ tr, atomicStep e.1 e.2 = true) ∧ s.row 1 = some row ∧ row.status = .pending ∧
      row.startedAt = some 0 ∧ ¬ row.Agrees := by
  obtain ⟨tr, s, hrun, _, hcheck⟩ := run_of_check (step {}) (State.initial 0)
    [.api 0 (.submit webhookRequest none), .api 0 (.insert 1), .api 0 .commit, .api 0 .command,
      .worker "w1" .dequeue, .worker "w1" (.claim 0 0), .worker "w1" .crash, .tick 61000000,
      .maintenance (.reaperSelect 10 [1]), .maintenance (.reaperUpdate 61000000)]
    (fun tr s => (tr.all fun e => atomicStep e.1 e.2) ∧
      (s.row 1).any fun row => row.status = .pending ∧ row.startedAt = some 0) (by decide +kernel)
  simp only [decide_eq_true_eq, List.all_eq_true, Option.any_eq_true] at hcheck
  obtain ⟨hatomic, row, hrow, hstatus, hstarted⟩ := hcheck
  refine ⟨tr, s, row, hrun, hatomic, hrow, hstatus, hstarted, ?_⟩
  intro hagrees
  rw [(hagrees.pending hstatus).2] at hstarted
  cases hstarted

end JobQueue
