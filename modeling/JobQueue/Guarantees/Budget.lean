import JobQueue.System.History

/-!
# The attempt budget

`apply_failure` re-opens a job only if `should_retry` allows. The reaper re-opens an expired
job whatever its attempt count, so a job that kills its worker is claimed again without
limit (`crash_exceeds_budget`). The budget holds in every run in which each step that
re-opens a job finds an attempt left (`attempts_within_budget`).
-/

namespace JobQueue

open Transition

variable {settings : Settings} {s s' : State} {a : Action} {tr : List (State × Action)}
  {j : UUID} {row row' : Job} {now : Timestamp}

/-! ## Steps that re-open a job -/

/-- The step, if it re-opens a job, finds an attempt left: an update of the reaper and a
retry scheduled by `apply_failure` by the limit of the row, a commit of `manual_retry` by
the limit it writes. -/
def keepsBudget (s : State) : Action → Bool
  | .maintenance (.reaperUpdate began) =>
      match s.maintenance.reaper with
      | jobId :: _ => (s.row jobId).all fun row =>
          row.expired began → shouldRetry row.attemptCount row.maxAttempts
      | [] => true
  | .worker w .commit =>
      match (s.workers w).executor with
      | .finalising m => (s.row m.id).all fun row =>
          m.current.status = .pending → shouldRetry row.attemptCount row.maxAttempts
      | _ => true
  | .api c .commit =>
      match s.calls c with
      | .retrying m => (s.row m.id).all fun row =>
          shouldRetry row.attemptCount m.current.maxAttempts
      | _ => true
  | _ => true

/-- The attempts are within the limit, and a job that may be claimed has one left. -/
structure Job.WithinBudget (job : Job) : Prop where
  attempts : job.attemptCount ≤ job.maxAttempts
  left : job.status = .pending ∨ job.status = .scheduled → job.attemptCount < job.maxAttempts

/-- A row that keeps its counters and is not re-opened stays within the budget. -/
theorem Job.WithinBudget.keep (h : row.WithinBudget)
    (hattempts : row'.attemptCount = row.attemptCount)
    (hmax : row'.maxAttempts = row.maxAttempts)
    (hstatus : row'.status = .pending ∨ row'.status = .scheduled →
      row.status = .pending ∨ row.status = .scheduled ∨ row.attemptCount < row.maxAttempts) :
    row'.WithinBudget := by
  refine ⟨by rw [hattempts, hmax]; exact h.attempts, ?_⟩
  intro hopen
  rw [hattempts, hmax]
  rcases hstatus hopen with hp | hs | hleft
  · exact h.left (Or.inl hp)
  · exact h.left (Or.inr hs)
  · exact hleft

theorem withinBudget_step (hshaped : s.Shaped settings) (hkept : keepsBudget s a = true)
    (hstep : step settings s a = some s') (hrow : s.row j = some row)
    (hrow' : s'.row j = some row') (h : row.WithinBudget) : row'.WithinBudget := by
  have hattempts := attemptCount_step hshaped hstep hrow hrow'
  have hmax := maxAttempts_step hshaped hstep hrow hrow'
  obtain ⟨row₁, hrow₁, hcase⟩ := row_step hstep hrow
  rw [hrow'] at hrow₁
  cases hrow₁
  rcases hcase with rfl | hchange
  · exact h
  · cases hchange with
    | claim hpopped _ hready =>
      rw [Job.ready_iff] at hready
      have hleft := h.left (Or.inl hready.1)
      refine ⟨?_, ?_⟩
      · simp only [Job.claim]
        omega
      · intro hstatus
        simp [Job.claim] at hstatus
    | @report w pct m _ hexecuting hid =>
      have hshape := hshaped.executor w
      rw [hexecuting] at hshape
      refine h.keep (by simpa [claims] using hattempts) (hmax rfl) ?_
      intro hstatus
      simp only [Mapped.flush, reportProgress, hshape.2, written_self] at hstatus
      rcases hstatus with hs | hs <;> simp [hs]
    | @finalise w m _ hfinalising hid =>
      subst hid
      refine h.keep (by simpa [claims] using hattempts) (hmax rfl) ?_
      intro hstatus
      rw [finalising_flush_status hshaped hfinalising] at hstatus
      simp only [keepsBudget, hfinalising, hrow, Option.all_some, decide_eq_true_eq] at hkept
      rcases hstatus with hs | hs
      · exact Or.inr (Or.inr (by simpa [shouldRetry] using hkept hs))
      · rcases finalising_status hshaped hfinalising with hf | hf | hf <;> simp [hs] at hf
    | cancel hcancelling =>
      refine h.keep (by simpa [claims] using hattempts)
        (hmax (by simp [reopens, hcancelling])) ?_
      intro hstatus
      simp [cancelling_flush_status hshaped hcancelling] at hstatus
    | @retry c m _ hretrying hid =>
      subst hid
      simp only [keepsBudget, hretrying, hrow, Option.all_some, shouldRetry,
        decide_eq_true_eq] at hkept
      have hcounters := retrying_counters hshaped hretrying
      have hwritten : (m.flush row).maxAttempts = m.current.maxAttempts :=
        written_of_ne _ (by omega)
      have hsame : (m.flush row).attemptCount = row.attemptCount := by
        simp [Mapped.flush, hcounters.1]
      refine ⟨by omega, fun _ => by omega⟩
    | promote _ hdue =>
      rw [Job.dueAt_iff] at hdue
      exact h.keep rfl rfl fun _ => Or.inr (Or.inl hdue.1)
    | @reap began _ _ hexpired hhead =>
      refine h.keep rfl rfl ?_
      intro _
      obtain ⟨rest, hreaper⟩ : ∃ rest, s.maintenance.reaper = j :: rest :=
        List.head?_eq_some_iff.mp hhead
      simp only [keepsBudget, hreaper, hrow, Option.all_some, decide_eq_true_eq] at hkept
      exact Or.inr (Or.inr (by simpa [shouldRetry] using hkept hexpired))
    | renew | cleanup =>
      refine h.keep rfl rfl ?_
      rintro (hs | hs)
      · exact Or.inl hs
      · exact Or.inr (Or.inl hs)

/-! ## The guarantee -/

theorem withinBudget_of_run (hrun : Run (step settings) (State.initial now) tr s)
    (hkept : ∀ e ∈ tr, keepsBudget e.1 e.2 = true) :
    ∀ j row, s.row j = some row → row.WithinBudget := by
  refine hrun.induct (C := fun s a => keepsBudget s a = true) hkept
    (I := fun _ s => ∀ j row, s.row j = some row → row.WithinBudget) ?_ ?_
  · intro j row hrow
    simp [State.row, State.initial] at hrow
  · intro tr s a s' hrun _ ih hkept hstep j row' hrow'
    have hshaped := shaped_of_run (State.quiet_initial now) hrun
    cases hrow : s.row j with
    | none =>
      obtain ⟨hattempts, hmax, _⟩ := new_row hshaped hstep hrow hrow'
      exact ⟨by omega, fun _ => by omega⟩
    | some row => exact withinBudget_step hshaped hkept hstep hrow hrow' (ih j row hrow)

/-- In every run in which each step that re-opens a job finds an attempt left, no job has
more attempts than its limit, nor has it been claimed more often. -/
theorem attempts_within_budget (hrun : Run (step settings) (State.initial now) tr s)
    (hkept : ∀ e ∈ tr, keepsBudget e.1 e.2 = true) (hrow : s.row j = some row) :
    row.attemptCount ≤ row.maxAttempts ∧ tr.countP (claims j) ≤ row.maxAttempts := by
  have hbudget := (withinBudget_of_run hrun hkept j row hrow).attempts
  have hcount := attempts_of_run (State.quiet_initial now) hrun j
  have hnone : (State.initial now).attempts j = 0 := by simp [State.attempts, State.row, State.initial]
  rw [State.attempts_of_row hrow, hnone] at hcount
  exact ⟨hbudget, by omega⟩

theorem attempts_within_budget_after_crash :
    ∃ tr s row, Run (step {}) (State.initial 0) tr s ∧ s.row 1 = some row ∧
      tr.countP (claims 1) = 2 ∧
      row.attemptCount ≤ row.maxAttempts ∧ tr.countP (claims 1) ≤ row.maxAttempts := by
  obtain ⟨tr, s, hrun, _, hcheck⟩ := run_of_check (step {}) (State.initial 0)
    [.api 0 (.submit webhookRequest none), .api 0 (.insert 1),
      .api 0 .commit, .api 0 .command, .worker "w1" .dequeue, .worker "w1" (.claim 0 0),
      .worker "w1" .crash, .tick 61000000, .maintenance (.reaperSelect 10 [1]),
      .maintenance (.reaperUpdate 61000000), .maintenance (.feederSelect 10 [1]),
      .maintenance .feederPush, .worker "w2" .dequeue, .worker "w2" (.claim 61000000 61000000),
      .worker "w2" .start, .worker "w2" (.fail .timeout 61000000), .worker "w2" .commit]
    (fun tr s => (tr.all fun e => keepsBudget e.1 e.2) ∧ (s.row 1).isSome ∧
      tr.countP (claims 1) = 2) (by decide +kernel)
  simp only [decide_eq_true_eq, List.all_eq_true, Option.isSome_iff_exists] at hcheck
  obtain ⟨hkept, ⟨row, hrow⟩, hclaims⟩ := hcheck
  exact ⟨tr, s, row, hrun, hrow, hclaims, attempts_within_budget hrun hkept hrow⟩

/-! ## A job that kills its worker -/

/-- With a limit of one attempt, a job whose worker crashes is reaped and claimed again. -/
theorem crash_exceeds_budget :
    ∃ tr s row, Run (step { defaultMaxAttempts := 1 }) (State.initial 0) tr s ∧
      s.row 1 = some row ∧ row.maxAttempts = 1 ∧ row.attemptCount = 2 ∧
      tr.countP (claims 1) = 2 := by
  obtain ⟨tr, s, hrun, _, hcheck⟩ := run_of_check (step { defaultMaxAttempts := 1 })
    (State.initial 0)
    [.api 0 (.submit webhookRequest none), .api 0 (.insert 1),
      .api 0 .commit, .api 0 .command, .worker "w1" .dequeue, .worker "w1" (.claim 0 0),
      .worker "w1" .crash, .tick 61000000, .maintenance (.reaperSelect 10 [1]),
      .maintenance (.reaperUpdate 61000000), .maintenance (.feederSelect 10 [1]),
      .maintenance .feederPush, .worker "w2" .dequeue, .worker "w2" (.claim 61000000 61000000)]
    (fun tr s => ((s.row 1).any fun row => row.maxAttempts = 1 ∧ row.attemptCount = 2) ∧
      tr.countP (claims 1) = 2) (by decide +kernel)
  simp only [decide_eq_true_eq, Option.any_eq_true] at hcheck
  obtain ⟨⟨row, hrow, hmax, hattempts⟩, hclaims⟩ := hcheck
  exact ⟨tr, s, row, hrun, hrow, hmax, hattempts, hclaims⟩

end JobQueue
