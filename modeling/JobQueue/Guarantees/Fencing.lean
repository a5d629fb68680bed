import JobQueue.Guarantees.Exclusion

/-!
# Fencing of the writes of a worker

`claim_job` and `renew_job_lease` name the owner in their `WHERE` clause. The progress
report and the two finalising commits do not: they flush the instance by primary key,
whatever the row has become. A worker whose lease was reaped while it still ran overwrites
the job of its successor (`stale_worker_overwrites`). As long as the reaper takes no
attempt from a live worker, each write finds the row of its own attempt
(`worker_writes_are_fenced`).
-/

namespace JobQueue

open Transition

variable {settings : Settings} {s s' s₀ : State} {a : Action} {tr : List (State × Action)}

/-! ## Writes of an attempt -/

/-- The step `a` is a write of worker `w` for the attempt `m`: a commit of
`_report_progress`, of `_complete_job` or of `apply_failure`. -/
def Writes (s : State) (a : Action) (w : WorkerId) (m : Mapped) : Prop :=
  ((∃ pct, a = .worker w (.report pct)) ∧ (s.workers w).executor = .executing m) ∨
    (a = .worker w .commit ∧ (s.workers w).executor = .finalising m)

/-- A write changes the row of its job only where the row still is the attempt's. -/
def Fenced (settings : Settings) (s : State) (a : Action) : Prop :=
  ∀ w m row s', Writes s a w m → s.row m.id = some row → step settings s a = some s' →
    s'.row m.id = some row ∨ OwnedBy w m.loaded.attemptCount row

theorem Writes.inHand {w : WorkerId} {m : Mapped} (h : Writes s a w m) : s.inHand w = some m := by
  rcases h with ⟨_, h⟩ | ⟨_, h⟩
  · simp [State.inHand, h, Executor.inHand]
  · simp [State.inHand, h, Executor.inHand]

theorem fenced_of_holding (h : s.Holding) : Fenced settings s a := by
  intro w m row s' hwrites hrow _
  obtain ⟨row', hrow', hholds⟩ := h w m hwrites.inHand
  rw [hrow] at hrow'
  cases hrow'
  exact Or.inr hholds.ownedBy

/-! ## A stale worker -/

/-- A finalising commit that changes a row another worker owns. -/
theorem not_fenced_of_commit {w : WorkerId} {j : UUID} {row : Job}
    (hstep : step settings s (.worker w .commit) = some s') (hrow : s.row j = some row)
    (hchanged : s'.row j ≠ some row) (howner : row.workerId ≠ some w) :
    ¬ Fenced settings s (.worker w .commit) := by
  intro h
  obtain ⟨row', hrow', hcase⟩ := row_step hstep hrow
  rcases hcase with rfl | hchange
  · exact hchanged hrow'
  · cases hchange with
    | finalise hfinalising hid =>
      subst hid
      rcases h w _ row s' (Or.inr ⟨rfl, hfinalising⟩) hrow hstep with hsame | howned
      · exact hchanged hsame
      · exact howner howned.worker

/-- Worker `w1` claims the job and outlives its lease; the job is reaped, fed again, claimed
and completed by `w2`; then the handler of `w1` fails. -/
def staleRun : List Action :=
  [.api 0 (.submit webhookRequest none), .api 0 (.insert 1),
    .api 0 .commit, .api 0 .command,
    .worker "w1" .dequeue, .worker "w1" (.claim 0 0), .worker "w1" .start,
    .tick 61000000,
    .maintenance (.reaperSelect 10 [1]), .maintenance (.reaperUpdate 61000000),
    .maintenance (.feederSelect 10 [1]), .maintenance .feederPush,
    .worker "w2" .dequeue, .worker "w2" (.claim 61000000 61000000), .worker "w2" .start,
    .worker "w2" (.finish (.obj []) 61000000), .worker "w2" .commit,
    .worker "w1" (.fail (.handlerError ⟨"HandlerError", "boom"⟩) 61000000)]

/-- The late `apply_failure` of the reaped worker re-opens the completed job. -/
theorem stale_worker_overwrites :
    ∃ tr s s', Run (step {}) (State.initial 0) tr s ∧
      (∀ e ∈ tr, e.2.startsCancel = false ∧ e.2.startsRetry = false) ∧
      step {} s (.worker "w1" .commit) = some s' ∧
      (∃ row, s.row 1 = some row ∧ row.status = .completed ∧ row.workerId = some "w2") ∧
      (∃ row, s'.row 1 = some row ∧ row.status = .pending) ∧
      ¬ Fenced {} s (.worker "w1" .commit) := by
  obtain ⟨tr, s, hrun, hactions, hcheck⟩ := run_of_check (step {}) (State.initial 0)
    staleRun (fun _ s => (s.row 1).any fun row =>
      (step {} s (.worker "w1" .commit)).any fun s' => (s'.row 1).any fun row' =>
        row.status = .completed ∧ row.workerId = some "w2" ∧ row'.status = .pending)
    (by decide +kernel)
  simp only [Option.any_eq_true, decide_eq_true_eq] at hcheck
  obtain ⟨row, hrow, s', hstep, row', hrow', hstatus, howner, hstatus'⟩ := hcheck
  have hno := forall_of_actions (p := fun a => a.startsCancel = false ∧ a.startsRetry = false) hactions
    (by decide)
  refine ⟨tr, s, s', hrun, hno, hstep, ⟨row, hrow, hstatus, howner⟩,
    ⟨row', hrow', hstatus'⟩, ?_⟩
  refine not_fenced_of_commit hstep hrow ?_ (by simp [howner])
  intro hsame
  rw [hsame] at hrow'
  cases hrow'
  exact absurd (hstatus.symm.trans hstatus') (by simp)

/-! ## Runs of workers and the reaper -/

theorem holding_of_leaseKept (hquiet : s₀.Quiet) (hrun : Run (step settings) s₀ tr s)
    (hno : ∀ e ∈ tr, e.2.startsCancel = false ∧ e.2.startsRetry = false)
    (hkept : ∀ e ∈ tr, e.1.LeaseKept e.2) : s.Holding := by
  have hboth : ∀ e ∈ tr, (e.2.startsCancel = false ∧ e.2.startsRetry = false) ∧ e.1.LeaseKept e.2 :=
    fun e he => ⟨hno e he, hkept e he⟩
  refine hrun.induct (C := fun s a => (a.startsCancel = false ∧ a.startsRetry = false) ∧ s.LeaseKept a)
    hboth (I := fun _ s => s.Holding) hquiet.holding ?_
  intro tr s a s' hrun hpast hholding ha hstep
  have hcancel := not_cancelling_of_run hquiet hrun fun e he => (hpast e he).1.1
  have hretry := not_retrying_of_run hquiet hrun fun e he => (hpast e he).1.2
  have hcall : ∀ c m row, a = .api c .commit →
      s.calls c = .cancelling m ∨ s.calls c = .retrying m → s.row m.id = some row →
      row.status ≠ .processing := by
    rintro c m row _ (h | h)
    · exact absurd h (hcancel c m)
    · exact absurd h (hretry c m)
  exact holding_step hholding (shaped_of_run hquiet hrun)
    (not_intrudes hholding ha.2 hcall) hstep

/-- In every run in which the reaper takes no attempt from a live worker, every write of a
worker is fenced. -/
theorem worker_writes_are_fenced (hquiet : s₀.Quiet) (hrun : Run (step settings) s₀ tr s)
    (hno : ∀ e ∈ tr, e.2.startsCancel = false ∧ e.2.startsRetry = false)
    (hkept : ∀ e ∈ tr, e.1.LeaseKept e.2) : ∀ e ∈ tr, Fenced settings e.1 e.2 := by
  intro e he
  obtain ⟨tr₁, tr₂, t, rfl, hrun₁, _, _⟩ := hrun.split_of_mem he
  have hpast : ∀ e' ∈ tr₁, e' ∈ tr₁ ++ e :: tr₂ := fun e' he' => List.mem_append_left _ he'
  exact fenced_of_holding (holding_of_leaseKept hquiet hrun₁ (fun e' he' => hno e' (hpast e' he'))
    fun e' he' => hkept e' (hpast e' he'))

theorem worker_writes_are_fenced_once :
    ∃ tr s, Run (step {}) (State.initial 0) tr s ∧
      (s.row 1).any (fun row => row.status = .completed ∧ row.attemptCount = 2) ∧
      ∀ e ∈ tr, Fenced {} e.1 e.2 := by
  -- `w1` crashes after its claim; the reaper resets the job and `w2` takes it to its end
  obtain ⟨tr, s, hrun, hactions, hcheck⟩ := run_of_check (step {}) (State.initial 0)
    [.api 0 (.submit { jobType := .batch, payload := .obj [] } none), .api 0 (.insert 1),
      .api 0 .commit, .api 0 .command, .worker "w1" .dequeue, .worker "w1" (.claim 0 0),
      .worker "w1" .start, .worker "w1" (.report 50), .worker "w1" .crash, .tick 61000000,
      .maintenance (.reaperSelect 10 [1]), .maintenance (.reaperUpdate 61000000),
      .maintenance (.feederSelect 10 [1]), .maintenance .feederPush, .worker "w2" .dequeue,
      .worker "w2" (.claim 61000000 61000000), .worker "w2" .start, .tick 66000000,
      .worker "w2" .beat, .worker "w2" (.renew 66000000), .worker "w2" .settle,
      .worker "w2" (.report 100), .worker "w2" (.finish (.obj []) 66000000), .worker "w2" .commit]
    (fun tr s => (s.row 1).any (fun row => row.status = .completed ∧ row.attemptCount = 2) ∧
      tr.all fun e => leasesLive ["w1", "w2"] e.1) (by decide +kernel)
  simp only [decide_eq_true_eq, List.all_eq_true] at hcheck
  obtain ⟨hdone, hlive⟩ := hcheck
  have hno := forall_of_actions (p := fun a => a.startsCancel = false ∧ a.startsRetry = false)
    hactions (by decide)
  have hothers := forall_of_actions (p := fun a => ∀ w b, a = .worker w b → w ∈ ["w1", "w2"])
    hactions (by simp)
  refine ⟨tr, s, hrun, hdone, worker_writes_are_fenced (State.quiet_initial 0) hrun hno ?_⟩
  intro e he
  exact (leasesLive_of_check (State.quiet_initial 0) hrun hothers hlive e he).leaseKept

end JobQueue
