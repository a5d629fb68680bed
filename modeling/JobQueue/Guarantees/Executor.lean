import JobQueue.Guarantees.Containment
import JobQueue.System.Turns

/-!
# The executor loop is a run of the system

Everything proved of the system is proved of steps of its parties. `run_executor_loop` is a
program: turns of `process_one`, each with its session, its exceptions and its `finally`
clause, until the stop event is seen or an exception escapes. This module shows that the
steps are those of the program, whatever the handlers do, wherever a timeout cancels them, and
whatever PostgreSQL rejects.

While the loop runs, the system makes steps of its worker, and between two turns its database
clock moves on to the turn's `now()`. Where the loop ends by itself, the system has the same
rows, the same Redis, the same `job_logs` and the same lease holder, and the worker is idle;
where an exception escapes, it has the same stores, and the worker is gone
(`executor_loop_refines`).
-/

namespace JobQueue

open Relational Transition

variable {settings : Settings} {db : Postgres} {w : WorkerId} {x x' : Audited} {p p' : Process}

/-- Steps of one worker and of the database clock. -/
def ExecutorRun (settings : Settings) (w : WorkerId) : Audited → Audited → Prop :=
  RunOf (auditedStep settings) fun a => (∃ b, a = .worker w b) ∨ ∃ t, a = .tick t

theorem WorkerRun.executor (h : WorkerRun settings w x x') : ExecutorRun settings w x x' := by
  obtain ⟨tr, hrun, hactions⟩ := h
  exact ⟨tr, hrun, fun e he => Or.inl (hactions e he)⟩

/-- The database clock moves on to a time, or is past it. -/
theorem tick_run (t : Timestamp) :
    ∃ x', ExecutorRun settings w x x' ∧ t ≤ x'.1.store.now ∧
      (∀ j, x'.1.row j = x.1.row j) ∧ x'.1.store.redis = x.1.store.redis ∧ x'.2 = x.2 ∧
      x'.1.workers = x.1.workers := by
  refine ⟨({ x.1 with store := { x.1.store with now := max x.1.store.now t } }, x.2), ?_,
    le_max_right _ _, fun _ => rfl, rfl, rfl, rfl⟩
  refine RunOf.of_step (a := .tick (max x.1.store.now t)) ?_ (Or.inr ⟨_, rfl⟩)
  simp [auditedStep, Journal.journaled, step, auditRows, logged]

/-- A turn begins when the database clock has reached its `now()`. -/
theorem turn_begins (settings : Settings) (hagrees : Agrees w x p) (hidle : (x.1.workers w).executor = .idle)
    (t : Timestamp) :
    ∃ x', ExecutorRun settings w x x' ∧ t ≤ x'.1.store.now ∧ Agrees w x' p ∧
      (x'.1.workers w).executor = .idle := by
  obtain ⟨x', hrun, hnow, hrows, hredis, hlog, hworkers⟩ := tick_run (w := w) (x := x) t
  refine ⟨x', hrun, hnow, ⟨⟨?_, ?_, ?_⟩, ?_⟩, ?_⟩
  · intro j
    rw [hrows]
    exact hagrees.rows j
  · rw [hredis]
    exact hagrees.redis
  · rw [hlog]
    exact hagrees.jobLogs
  · rw [hworkers]
    exact hagrees.holder
  · rw [hworkers]
    exact hidle

/-- Every run of the executor loop, on the stores of any state whose worker is idle, is a run
of the system by steps of that worker while the database clock moves on: it ends with the
stores of the loop, and with the worker idle if the loop has ended by itself and gone if an
exception has escaped. -/
theorem executor_loop_refines (settings : Settings) (db : Postgres) (turns : List ExecutorTurn) (hagrees : Agrees w x p)
    (hidle : (x.1.workers w).executor = .idle) :
    (∀ p', runExecutorLoop settings db w turns p = .ok () p' →
      ∃ x', ExecutorRun settings w x x' ∧ Agrees w x' p' ∧
        (x'.1.workers w).executor = .idle) ∧
    ∀ exc p', runExecutorLoop settings db w turns p = .error exc p' →
      ∃ x', ExecutorRun settings w x x' ∧ SameStores x' p' ∧
        (x'.1.workers w).executor = .crashed := by
  induction turns generalizing x p with
  | nil =>
    refine ⟨?_, ?_⟩
    · intro p' h
      cases h
      exact ⟨x, .refl, hagrees, hidle⟩
    · intro exc p' h
      cases h
  | cons turn rest ih =>
    obtain ⟨x₁, hrun₁, hnow, hagrees₁, hidle₁⟩ :=
      turn_begins settings hagrees hidle turn.clocks.began
    unfold runExecutorLoop
    cases hturn : processOne settings db turn.clocks w turn.behaviour p with
    | ok popped p₁ =>
      obtain ⟨x₂, hrun₂, hagrees₂, hidle₂⟩ := processOne_returns hagrees₁ hidle₁ hnow hturn
      obtain ⟨hreturns, hraises⟩ := ih hagrees₂ hidle₂
      refine ⟨?_, ?_⟩
      · intro p' h
        obtain ⟨x₃, hrun₃, hend⟩ := hreturns p' h
        exact ⟨x₃, (hrun₁.trans hrun₂.executor).trans hrun₃, hend⟩
      · intro exc p' h
        obtain ⟨x₃, hrun₃, hend⟩ := hraises exc p' h
        exact ⟨x₃, (hrun₁.trans hrun₂.executor).trans hrun₃, hend⟩
    | error exc₁ p₁ =>
      obtain ⟨x₂, hrun₂, hend⟩ := processOne_raises hagrees₁ hidle₁ hnow hturn
      refine ⟨?_, ?_⟩
      · intro p' h
        cases h
      · intro exc p' h
        cases h
        exact ⟨x₂, hrun₁.trans hrun₂.executor, hend⟩

/-- A webhook job and a batch job wait in Redis. -/
def twoWaiting : Process where
  jobs := ((∅ : Jobs).insert 1 (newJob {} webhookRequest none 0)).insert 2
    (newJob {} { webhookRequest with jobType := .batch } none 0)
  redis := ((({} : Redis).enqueue 1 0).1.enqueue 2 1).1

/-- The handler of the first job fails, and the second overruns in the commit of its second
report, which PostgreSQL carries out. -/
def failingTurns : List ExecutorTurn :=
  [⟨⟨0, 0, 0, 0⟩, { ending := .raises ⟨.handlerError, "HandlerError", some "boom"⟩ }⟩,
    ⟨⟨1, 1, 1, 1⟩, { reports := [25], ending := .interrupted 50 (.commit true) }⟩]

theorem executor_loop_refines_failing :
    ∃ x', ExecutorRun {} "w1"
        ({ store := { jobs := twoWaiting.jobs, redis := twoWaiting.redis } }, []) x' ∧
      (x'.1.row 1).map Job.status = some .pending ∧
      (x'.1.row 2).map (fun row => (row.status, row.progressPct)) = some (.processing, 50) ∧
      (x'.1.workers "w1").executor = .crashed := by
  have hloop : (match runExecutorLoop {} postgres "w1" failingTurns twoWaiting with
      | .ok _ _ => false
      | .error _ p => (p.jobs.lookup 1).map Job.status = some .pending ∧
          (p.jobs.lookup 2).map (fun row => (row.status, row.progressPct)) =
            some (.processing, 50)) = true := by decide +kernel
  split at hloop
  · cases hloop
  · rename_i exc p' heq
    rw [decide_eq_true_eq] at hloop
    obtain ⟨x', hrun, hsame, hcrashed⟩ := (executor_loop_refines {} postgres (w := "w1")
      (x := ({ store := { jobs := twoWaiting.jobs, redis := twoWaiting.redis } }, []))
      failingTurns ⟨⟨fun _ => rfl, rfl, rfl⟩, rfl⟩ rfl).2 exc p' heq
    refine ⟨x', hrun, ?_, ?_, hcrashed⟩
    · rw [hsame.rows]
      exact hloop.1
    · rw [hsame.rows]
      exact hloop.2

end JobQueue
