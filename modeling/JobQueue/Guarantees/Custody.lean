import JobQueue.Guarantees.Recovery
import JobQueue.System.Custody
import JobQueue.System.Lifecycle

/-!
# No processing job is orphaned

In every interleaving of the whole system, a job that is processing has a lease and names a
worker, and that worker has exactly this attempt in its hand or has crashed. So what the
reaper takes is the attempt of a crashed worker, or one that its worker is still busy with
past the lease: a worker that rests, or has gone on to another job or attempt, is never named
(`processing_jobs_attended`).
-/

namespace JobQueue

open Relational Transition

variable {settings : Settings} {s : State} {tr : List (State × Action)} {now : Timestamp}

/-- The worker and the lease that a processing row names, with the worker's attempt. -/
theorem attended_of_run (hrun : Run (step settings) (State.initial now) tr s) {j : UUID}
    {row : Job} (hrow : s.row j = some row) (hstatus : row.status = .processing) :
    ∃ w t, row.workerId = some w ∧ row.leasedUntil = some t ∧ s.Attends w j row.attemptCount := by
  obtain ⟨t, w, hlease, hworker⟩ := (recoverable_of_run hrun j row hrow).processing hstatus
  exact ⟨w, t, hworker, hlease, custody_of_run hrun j row w hrow ⟨hstatus, hworker, rfl⟩⟩

/-- In every interleaving a processing job has a lease and a worker that has exactly this
attempt in its hand or has crashed; and so has every job that the reaper resets. -/
theorem processing_jobs_attended (hrun : Run (step settings) (State.initial now) tr s) :
    (∀ j row, s.row j = some row → row.status = .processing →
      ∃ w t, row.workerId = some w ∧ row.leasedUntil = some t ∧
        s.Attends w j row.attemptCount) ∧
    ∀ e ∈ tr, ∀ j, resets j e = true → ∃ row w, e.1.row j = some row ∧
      row.workerId = some w ∧ e.1.Attends w j row.attemptCount := by
  refine ⟨fun j row => attended_of_run hrun, ?_⟩
  rintro ⟨t, a⟩ he j hresets
  obtain ⟨past, _, t', _, hbefore, hstep, _⟩ := hrun.split_of_mem he
  obtain ⟨began, row, _, hrow, hexpired, _⟩ := resets_row hstep hresets
  obtain ⟨w, _, hworker, _, hattends⟩ :=
    attended_of_run hbefore hrow (Job.expired_iff.mp hexpired).1
  exact ⟨row, w, hrow, hworker, hattends⟩

/-- The reaper takes job 1 from a worker that is still running its handler, and the job goes
to a second worker. -/
theorem processing_jobs_attended_late :
    ∃ tr s row, Run (step {}) (State.initial 0) tr s ∧ (∃ e ∈ tr, resets 1 e = true) ∧
      s.row 1 = some row ∧ row.attemptCount = 2 ∧
      ∃ w, row.workerId = some w ∧ s.Attends w 1 row.attemptCount := by
  obtain ⟨tr, s, hrun, _, hcheck⟩ := run_of_check (step {}) (State.initial 0)
    [.api 0 (.submit webhookRequest none), .api 0 (.insert 1), .api 0 .commit, .api 0 .command,
      .worker "w1" .dequeue, .worker "w1" (.claim 0 0), .worker "w1" .start, .tick 61000000,
      .maintenance (.reaperSelect 10 [1]), .maintenance (.reaperUpdate 61000000),
      .maintenance (.feederSelect 10 [1]), .maintenance .feederPush, .worker "w2" .dequeue,
      .worker "w2" (.claim 61000000 61000000)]
    (fun tr s => (tr.any fun e => resets 1 e) ∧
      (s.row 1).any fun row => row.status = .processing ∧ row.attemptCount = 2)
    (by decide +kernel)
  simp only [decide_eq_true_eq, List.any_eq_true, Option.any_eq_true] at hcheck
  obtain ⟨hreset, row, hrow, hstatus, hattempts⟩ := hcheck
  obtain ⟨w, _, hworker, _, hattends⟩ :=
    (processing_jobs_attended hrun).1 1 row hrow hstatus
  exact ⟨tr, s, row, hrun, hreset, hrow, hattempts, w, hworker, hattends⟩

end JobQueue
