import JobQueue.System.Requests

/-!
# Scheduled jobs never run early

A row with a time is claimable only after an update of the scheduler, whose `WHERE` clause
compares the time with the database's clock. Until then the row is scheduled or cancelled,
nobody holds the job and no call is about to re-open it (`Waits`), whatever Redis holds and
whatever the clocks of the processes say. So no claim of the job wins before its time
(`scheduled_jobs_never_run_early`).
-/

namespace JobQueue

open Relational Transition

variable {settings : Settings} {s s' : State} {a : Action} {tr : List (State × Action)}
  {j : UUID} {row row' : Job} {runAt now : Timestamp}

/-! ## A job that waits for its time -/

/-- No worker holds the job and no `manual_retry` is about to write it. -/
structure State.Untouched (s : State) (j : UUID) : Prop where
  inHand : ∀ w m, s.inHand w = some m → m.id ≠ j
  retrying : ∀ c m, s.calls c = .retrying m → m.id ≠ j

structure Waits (s : State) (j : UUID) (row : Job) : Prop where
  status : row.status = .scheduled ∨ row.status = .cancelled
  untouched : s.Untouched j

/-- The scheduler has sent an update whose transaction began at or after `runAt`. -/
def Promoted (runAt : Timestamp) (tr : List (State × Action)) : Prop :=
  ∃ e ∈ tr, ∃ began, e.2 = .maintenance (.schedulerUpdate began) ∧ runAt ≤ began ∧
    began ≤ e.1.store.now

theorem Promoted.append {tr' : List (State × Action)} (h : Promoted runAt tr) :
    Promoted runAt (tr ++ tr') := by
  obtain ⟨e, he, hpromoted⟩ := h
  exact ⟨e, List.mem_append_left _ he, hpromoted⟩

/-- A job is taken up only from the statuses pending and failed. -/
theorem untouched_step (h : s.Untouched j) (hstep : step settings s a = some s')
    (hrow : ∀ row, s.row j = some row → row.status ≠ .pending ∧ row.status ≠ .failed) :
    s'.Untouched j where
  inHand w m hm hid := by
    subst hid
    rcases inHand_step hstep hm with
      ⟨began, _, row, _, _, hbefore, hready, _, _⟩ | ⟨n, hn, hid, _⟩
    · exact (hrow row hbefore).1 (Job.ready_iff.mp hready).1
    · exact h.inHand w n hn hid.symm
  retrying c m hc hid := by
    subst hid
    rcases retrying_step hstep hc with ⟨hc, _⟩ | ⟨row, _, _, hbefore, _, hok, _⟩
    · exact h.retrying c m hc rfl
    · exact (hrow row hbefore).2 (by simpa [Job.retryable] using hok)

/-- What a step makes of a job that waits: only the scheduler ends the wait. -/
theorem waits_step (hshaped : s.Shaped settings) (hstep : step settings s a = some s')
    (hrow : s.row j = some row) (hrow' : s'.row j = some row') (hat : row.scheduledAt = some runAt)
    (h : Waits s j row) : Promoted runAt (tr ++ [(s, a)]) ∨ Waits s' j row' := by
  have huntouched : s'.Untouched j := by
    refine untouched_step h.untouched hstep ?_
    intro row₁ hrow₁
    rw [hrow] at hrow₁
    cases hrow₁
    rcases h.status with hstatus | hstatus <;> simp [hstatus]
  obtain ⟨row₁, hrow₁, hcase⟩ := row_step hstep hrow
  rw [hrow'] at hrow₁
  cases hrow₁
  rcases hcase with rfl | hchange
  · exact Or.inr ⟨h.status, huntouched⟩
  · cases hchange with
    | claim _ _ hready =>
      have hpending := (Job.ready_iff.mp hready).1
      rcases h.status with hstatus | hstatus <;> simp [hstatus] at hpending
    | @report w pct m _ hexecuting hid =>
      exact absurd hid (h.untouched.inHand w m (inHand_of_executing hexecuting))
    | @finalise w m _ hfinalising hid =>
      exact absurd hid (h.untouched.inHand w m (inHand_of_finalising hfinalising))
    | cancel hcancelling =>
      exact Or.inr ⟨Or.inr (cancelling_flush_status hshaped hcancelling row), huntouched⟩
    | @retry c m _ hretrying hid => exact absurd hid (h.untouched.retrying c m hretrying)
    | @promote began _ hbegan hdue =>
      obtain ⟨_, t, ht, hle⟩ := Job.dueAt_iff.mp hdue
      rw [hat] at ht
      cases ht
      exact Or.inl ⟨_, List.mem_append_right _ (List.mem_singleton_self _), began, rfl, hle, hbegan⟩
    | reap _ hexpired =>
      have hprocessing := (Job.expired_iff.mp hexpired).1
      rcases h.status with hstatus | hstatus <;> simp [hstatus] at hprocessing
    | renew | cleanup => exact Or.inr ⟨h.status, huntouched⟩

structure TimedInv (tr : List (State × Action)) (s : State) : Prop where
  absent : ∀ j, s.row j = none → s.Untouched j
  waits : ∀ j row runAt, s.row j = some row → row.scheduledAt = some runAt →
    Promoted runAt tr ∨ Waits s j row

theorem timedInv_step (h : TimedInv tr s) (hshaped : s.Shaped settings)
    (hstep : step settings s a = some s') : TimedInv (tr ++ [(s, a)]) s' where
  absent j hrow' := by
    cases hrow : s.row j with
    | none =>
      refine untouched_step (h.absent j hrow) hstep ?_
      intro row hsome
      rw [hrow] at hsome
      cases hsome
    | some row =>
      obtain ⟨row₁, hrow₁, _⟩ := row_step hstep hrow
      rw [hrow'] at hrow₁
      cases hrow₁
  waits j row' runAt hrow' hat' := by
    cases hrow : s.row j with
    | none =>
      obtain ⟨_, _, data, key, t, rfl⟩ := new_row hshaped hstep hrow hrow'
      have hat : data.scheduledAt = some runAt := hat'
      refine Or.inr ⟨Or.inl (by simp [newJob, hat]), ?_⟩
      refine untouched_step (h.absent j hrow) hstep ?_
      intro row hsome
      rw [hrow] at hsome
      cases hsome
    | some row =>
      have hsame := request_step hshaped hstep hrow hrow'
      have hat : row.scheduledAt = some runAt := by
        rw [← hat']
        exact congrArg Request.scheduledAt hsame.symm
      rcases h.waits j row runAt hrow hat with hpromoted | hwaits
      · exact Or.inl hpromoted.append
      · exact waits_step hshaped hstep hrow hrow' hat hwaits

theorem timedInv_of_run (hrun : Run (step settings) (State.initial now) tr s) : TimedInv tr s := by
  refine hrun.induct (C := fun _ _ => True) (by simp) ⟨?_, ?_⟩ ?_
  · intro j _
    refine ⟨?_, ?_⟩
    · intro w m hm
      rw [(State.quiet_initial now).inHand w] at hm
      cases hm
    · intro c m hc
      rw [(State.quiet_initial now).calls c] at hc
      cases hc
  · intro j row runAt hrow
    simp [State.row, State.initial] at hrow
  · intro tr s a s' hrun _ h _ hstep
    exact timedInv_step h (shaped_of_run (State.quiet_initial now) hrun) hstep

/-- A job that is pending, or in the hand of a worker, has been promoted. -/
theorem promoted_of_pending (hrun : Run (step settings) (State.initial now) tr s)
    (hrow : s.row j = some row) (hat : row.scheduledAt = some runAt)
    (hpending : row.status = .pending ∨ ∃ w m, s.inHand w = some m ∧ m.id = j) :
    Promoted runAt tr := by
  rcases (timedInv_of_run hrun).waits j row runAt hrow hat with hpromoted | hwaits
  · exact hpromoted
  · rcases hpending with hpending | ⟨w, m, hm, hid⟩
    · rcases hwaits.status with hstatus | hstatus <;> simp [hstatus] at hpending
    · exact absurd hid (hwaits.untouched.inHand w m hm)

/-! ## The clock of the database -/

theorem Promoted.le_now {s₀ : State} (hrun : Run (step settings) s₀ tr s)
    (h : Promoted runAt tr) : runAt ≤ s.store.now := by
  obtain ⟨e, he, began, _, hle, hnow⟩ := h
  obtain ⟨_, _, t, _, _, ht, hrest⟩ := hrun.split_of_mem he
  exact hle.trans (hnow.trans ((now_step ht).trans (now_le_of_run hrest)))

/-- `now()` in the transaction of a conditional update. -/
def transactionTime (e : State × Action) : Option Timestamp :=
  match e.2 with
  | .worker _ (.claim began _) => some began
  | .maintenance (.schedulerUpdate began) => some began
  | .maintenance (.reaperUpdate began) => some began
  | _ => none

/-- `now()` does not decrease from one transaction to the next. -/
def TransactionsOrdered (tr : List (State × Action)) : Prop :=
  (tr.filterMap transactionTime).Pairwise (· ≤ ·)

theorem Promoted.le_began {past future : List (State × Action)} {e : State × Action}
    {began : Timestamp} (hordered : TransactionsOrdered (past ++ e :: future))
    (he : transactionTime e = some began) (h : Promoted runAt past) : runAt ≤ began := by
  obtain ⟨e', he', began', hupdate, hle, _⟩ := h
  have hmem : began' ∈ past.filterMap transactionTime :=
    List.mem_filterMap.mpr ⟨e', he', by simp [transactionTime, hupdate]⟩
  have hsplit : (past ++ e :: future).filterMap transactionTime =
      past.filterMap transactionTime ++ began :: future.filterMap transactionTime := by
    rw [List.filterMap_append, List.filterMap_cons, he]
  rw [TransactionsOrdered, hsplit] at hordered
  exact hle.trans ((List.pairwise_append.mp hordered).2.2 began' hmem began List.mem_cons_self)

/-! ## The guarantee -/

/-- In every run of the whole system, no claim of a job that was submitted for `runAt` wins,
and no worker holds it, while the database's clock is before `runAt`. If moreover `now()`
does not decrease across transactions, `now()` in the transaction of the claim has reached
`runAt` too. -/
theorem scheduled_jobs_never_run_early {e : State × Action} {job : Job}
    (hrun : Run (step settings) (State.initial now) tr s) (he : e ∈ tr)
    (hsubmits : submits j e = some job) (hat : job.scheduledAt = some runAt) :
    (∀ e' ∈ tr, claims j e' = true → runAt ≤ e'.1.store.now) ∧
      (∀ e' ∈ tr, ∀ w m, e'.1.inHand w = some m → m.id = j → runAt ≤ e'.1.store.now) ∧
      (TransactionsOrdered tr → ∀ e' ∈ tr, claims j e' = true →
        ∀ began, transactionTime e' = some began → runAt ≤ began) := by
  have hquiet := State.quiet_initial now
  -- wherever the job is pending or in a hand, its promotion lies in the past
  have hpast : ∀ past e' future, tr = past ++ e' :: future →
      (∃ row, e'.1.row j = some row ∧
        (row.status = .pending ∨ ∃ w m, e'.1.inHand w = some m ∧ m.id = j)) →
      Promoted runAt past ∧ runAt ≤ e'.1.store.now := by
    rintro past e' future rfl ⟨row, hrow, hpending⟩
    obtain ⟨_, hrun', _, _⟩ := hrun.split
    have hsame := submitted_of_run hquiet hrun he hsubmits (by simp : e' ∈ past ++ e' :: future) hrow
    have hrowat : row.scheduledAt = some runAt := by
      rw [← hat]
      exact congrArg Request.scheduledAt hsame
    have hpromoted := promoted_of_pending hrun' hrow hrowat hpending
    exact ⟨hpromoted, hpromoted.le_now hrun'⟩
  have hclaimed : ∀ e', claims j e' = true → ∃ row, e'.1.row j = some row ∧ row.status = .pending := by
    rintro ⟨t, b⟩ hclaims
    obtain ⟨w, began, clock, row, _, _, hrow, hready⟩ := claims_iff.mp hclaims
    exact ⟨row, hrow, (Job.ready_iff.mp hready).1⟩
  refine ⟨?_, ?_, ?_⟩
  · intro e' he' hclaims
    obtain ⟨past, future, htr⟩ := List.append_of_mem he'
    obtain ⟨row, hrow, hstatus⟩ := hclaimed e' hclaims
    exact (hpast past e' future htr ⟨row, hrow, Or.inl hstatus⟩).2
  · intro e' he' w m hm hid
    obtain ⟨past, future, htr⟩ := List.append_of_mem he'
    have hrow : e'.1.row j ≠ none := by
      intro hnone
      rw [htr] at hrun
      obtain ⟨_, hrun', _, _⟩ := hrun.split
      exact ((timedInv_of_run hrun').absent j hnone).inHand w m hm hid
    obtain ⟨row, hrow⟩ := Option.ne_none_iff_exists'.mp hrow
    exact (hpast past e' future htr ⟨row, hrow, Or.inr ⟨w, m, hm, hid⟩⟩).2
  · intro hordered e' he' hclaims began hbegan
    obtain ⟨past, future, htr⟩ := List.append_of_mem he'
    obtain ⟨row, hrow, hstatus⟩ := hclaimed e' hclaims
    have hpromoted := (hpast past e' future htr ⟨row, hrow, Or.inl hstatus⟩).1
    rw [htr] at hordered
    exact hpromoted.le_began hordered hbegan

/-- A job for `10` is promoted and claimed; an entry of Redis that comes too early, and a
worker whose clock runs ahead, come to nothing. -/
theorem scheduled_jobs_never_run_early_once :
    ∃ tr s, Run (step {}) (State.initial 0) tr s ∧ tr.countP (claims 1) = 1 ∧
      (∀ e' ∈ tr, claims 1 e' = true → 10 ≤ e'.1.store.now) ∧
      (∀ e' ∈ tr, ∀ w m, e'.1.inHand w = some m → m.id = 1 → 10 ≤ e'.1.store.now) ∧
      ∀ e' ∈ tr, claims 1 e' = true → ∀ began, transactionTime e' = some began → 10 ≤ began := by
  obtain ⟨tr, s, hrun, _, hcheck⟩ := run_of_check (step {}) (State.initial 0)
    [.api 0 (.submit { webhookRequest with scheduledAt := some 10 } none), .api 0 (.insert 1),
      .api 0 .commit, .api 0 .command, .tamper (({} : Redis).enqueue 1 0).1,
      .worker "w1" .dequeue, .worker "w1" (.claim 0 50), .tick 10,
      .maintenance (.schedulerRead 12 5), .maintenance (.schedulerSelect [1]),
      .maintenance (.schedulerUpdate 10), .maintenance .schedulerCommand,
      .maintenance .schedulerCommand, .worker "w1" .dequeue, .worker "w1" (.claim 10 10)]
    (fun tr _ => tr.countP (claims 1) = 1 ∧ (tr.filterMap transactionTime).Pairwise (· ≤ ·) ∧
      tr.any fun e => (submits 1 e).any fun job => job.scheduledAt = some 10) (by decide +kernel)
  simp only [decide_eq_true_eq, List.any_eq_true, Option.any_eq_true] at hcheck
  obtain ⟨hclaims, hordered, e, he, job, hsubmits, hat⟩ := hcheck
  obtain ⟨hnow, hhand, hbegan⟩ := scheduled_jobs_never_run_early hrun he hsubmits hat
  exact ⟨tr, s, hrun, hclaims, hnow, hhand, hbegan hordered⟩

end JobQueue
